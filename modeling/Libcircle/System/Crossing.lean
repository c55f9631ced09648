import Libcircle.System.Arrival

/-!
# All ranks complete the cleanup barrier

Every event makes one node of the barrier wave advance, or leaves the wave alone
(`barrier_next`).  Once all ranks have started the barrier, one of those that have
not completed it can make the next move.  Its pass through the cleanup loop takes it
to `CIRCLE_barrier_test`.  So all ranks complete the barrier (`leads_past`).
-/

namespace Libcircle

variable {α : Type*} {job : Job} {s t : Sys α} {e : Event α} {r x q c p : Rank}

/-! ## Moves -/

/-- One rank is further on in the barrier. -/
def Sys.Crosses (job : Job) (s t : Sys α) (r : Rank) : Prop :=
  Wave.Advances job.rootedTree s.barrier.wave t.barrier.wave r

/-- An arrival is received. -/
theorem crosses_barrierReply (he : s.Enabled job (.barrierReply r (some q))) (hW : s.Waves job) :
    s.Crosses job (s.next job (.barrierReply r (some q))) q := by
  obtain ⟨hpc, hsrc⟩ := he
  obtain ⟨hpend, hm⟩ := hsrc q (by simp)
  rw [hW.once.tree_eq ((hW.once.coherent.ok r).stage_ne (by simp [hpc]))] at hpend
  have hc := hW.barrier.child_of_pending hpend hm
  have hwave : (s.next job (.barrierReply r (some q))).barrier.wave = s.barrier.wave.recv r q :=
    BarrierNet.wave_recvArrival ..
  rw [Sys.Crosses, hwave]
  exact hW.barrier.advances_recv hc hm

/-- The report to the parent, or the completion on the root. -/
theorem crosses_barrierUp (he : s.Enabled job (.barrierUp r)) (hW : s.Waves job) :
    (¬s.barrier.Ready (job.tree 1 r) r ∧
        (s.next job (.barrierUp r)).barrier.wave = s.barrier.wave) ∨
      s.Crosses job (s.next job (.barrierUp r)) r := by
  have hpc : s.pc r = .barrierUp := he
  have hlt : r < job.size := (hW.once.coherent.ok r).lt_size (by simp [hpc])
  have htree := hW.once.tree_eq ((hW.once.coherent.ok r).stage_ne (by simp [hpc]))
  obtain ⟨hready, hy⟩ | ⟨p, hready, hp, hy⟩ | ⟨_, hp, hy⟩ :=
    s.barrier.report_cases (job.tree 1 r) r
  · exact .inl ⟨hready, by simp only [Sys.next, htree, hy]⟩
  · right
    rw [Sys.Crosses]
    simp only [Sys.next, htree, hy, BarrierNet.wave_sendUp]
    exact Wave.advances_send (job.mem_children hlt hp) hready.1 ()
  · right
    rw [Sys.Crosses]
    simp only [Sys.next, htree, hy, BarrierNet.wave_complete]
    exact Wave.advances_release ()

/-- The release of the parent, or none. -/
theorem crosses_barrierDown {hit : Bool} (he : s.Enabled job (.barrierDown r hit))
    (hW : s.Waves job) :
    (hit = false ∧ (s.next job (.barrierDown r hit)).barrier.wave = s.barrier.wave) ∨
      s.Crosses job (s.next job (.barrierDown r hit)) r := by
  obtain ⟨hpc, hhit⟩ := he
  have hlt : r < job.size := (hW.once.coherent.ok r).lt_size (by simp [hpc])
  have htree := hW.once.tree_eq ((hW.once.coherent.ok r).stage_ne (by simp [hpc]))
  rw [htree] at hhit
  obtain hy | ⟨p, hp, rfl, hy⟩ := s.barrier.await_cases (job.tree 1 r) r hit
  · refine .inl ⟨?_, by simp only [Sys.next, htree, hy]⟩
    cases hit with
    | false => rfl
    | true =>
        obtain ⟨p, hp, _⟩ := TreeState.parentSent_iff.mp (hhit rfl).2
        simp [BarrierNet.await, hp] at hy
  · right
    rw [Sys.Crosses]
    simp only [Sys.next, htree, hy, BarrierNet.wave_recvRelease]
    exact Wave.advances_answer (job.mem_children hlt hp) ()

/-- Every event is a move of the barrier, or leaves it alone. -/
theorem barrier_next (he : s.Enabled job e) (hW : s.Waves job) :
    (s.next job e).barrier.wave = s.barrier.wave ∨
      ∃ x, x < job.size ∧ s.Crosses job (s.next job e) x := by
  have hlt := (hW.once.coherent.ok _).rank_lt he
  cases e with
  | begin r next ops =>
      have hst := ((hW.once.coherent.ok r).requested_of_idle he.1).1
      have hnot := (hW.once.coherent.ok r).tidy.barrier_reset (by simp [Sys.loc, hst])
      exact .inl (BarrierNet.wave_init s.barrier
        ((hW.once.coherent.ok r).tidy.barrier_started hnot))
  | barrierStart r =>
      left
      simp only [Sys.next]
      split
      · exact BarrierNet.wave_barrierStart s.barrier
      · rfl
  | barrierReply r src =>
      cases src with
      | none => exact .inl rfl
      | some q =>
          have hcross := crosses_barrierReply he hW
          obtain ⟨hpc, hsrc⟩ := he
          obtain ⟨hpend, hm⟩ := hsrc q (by simp)
          rw [hW.once.tree_eq ((hW.once.coherent.ok r).stage_ne (by simp [hpc]))] at hpend
          exact .inr ⟨q, job.rootedTree.node_of_mem (hW.barrier.child_of_pending hpend hm), hcross⟩
  | barrierUp r => exact (crosses_barrierUp he hW).imp And.right fun h => ⟨r, hlt, h⟩
  | barrierDown r hit => exact (crosses_barrierDown he hW).imp And.right fun h => ⟨r, hlt, h⟩
  | _ => exact .inl rfl

/-! ## What is left of the barrier -/

/-- In one invocation a rank completes the barrier at most once. -/
theorem completed_le_one (hO : s.Once job) (x : Rank) : (s.barrier.st x).completed ≤ 1 := by
  have hcounted := (hO.coherent.ok x).tidy.counted
  have hinv : (s.loc x).inv ≤ 1 := hO.inv_le x
  have hsame : (s.loc x).barrier.completed = (s.barrier.st x).completed := rfl
  cases hst : (s.loc x).stage with
  | main | cleanup | after | outside =>
      rw [hst, Stage.Counted] at hcounted
      omega

theorem progress_barrier_le (hO : s.Once job) (x : Rank) :
    s.barrier.wave.progress job.rootedTree x ≤ 3 * 1 := by
  refine Wave.progress_le_of_up (completed_le_one hO x) fun hup => ?_
  -- it has not completed the barrier
  have htidy := (hO.coherent.ok x).tidy
  have hst : (s.loc x).stage = .cleanup := by
    by_contra hst
    have hup' := (htidy.barrier_started (htidy.barrier_reset hst)).1
    exact absurd (hup'.symm.trans hup) (by decide)
  have hcounted := htidy.counted
  rw [hst] at hcounted
  have hinv : (s.loc x).inv ≤ 1 := hO.inv_le x
  have hzero : s.barrier.wave.done x + 1 = (s.loc x).inv := hcounted.1
  omega

/-- The moves left of the barrier. -/
def Sys.crossing (job : Job) (s : Sys α) : ℕ :=
  s.barrier.wave.remaining job.rootedTree (Finset.range job.size) 1

theorem crossing_lt (hO : t.Once job) (hx : x < job.size) (h : s.Crosses job t x) :
    t.crossing job < s.crossing job :=
  Wave.remaining_lt (Finset.mem_range.mpr hx) h (progress_barrier_le hO x) (Nat.le_refl 1)

/-- All ranks have started the barrier or completed it, and no move has been made since `s`, or less
is left. -/
structure Sys.Crossed (job : Job) (s t : Sys α) : Prop where
  cleaning : t.Cleaning job
  arrived : t.Arrived job
  wave : t.barrier.wave = s.barrier.wave ∨ t.crossing job < s.crossing job

/-- A move leaves less. -/
theorem Sys.Crossed.move (h : s.Crossed job t) (he : t.Enabled job e) (hf : FirstOnly t e)
    (hx : x < job.size) (hcross : t.Crosses job (t.next job e) x) :
    (t.next job e).crossing job < s.crossing job := by
  have hlt := crossing_lt (once_next he hf h.cleaning.live.once) hx hcross
  rcases h.wave with hwave | hless
  · rwa [Sys.crossing.eq_1 job s, ← hwave]
  · exact hlt.trans hless

/-- Every step keeps this. -/
theorem Sys.Crossed.next (ht : (job.opts 1).termTree = true) (h : s.Crossed job t)
    (he : t.Enabled job e) (hf : FirstOnly t e) : s.Crossed job (t.next job e) where
  cleaning := cleaning_next ht he hf h.cleaning
  arrived := arrived_next he hf h.cleaning h.arrived
  wave := by
    rcases barrier_next he h.cleaning.live.waves with hsame | ⟨x, hx, hcross⟩
    · rw [Sys.crossing, hsame]
      exact h.wave
    · exact .inr (h.move he hf hx hcross)

/-- Less is left than in `s`. -/
def Sys.Closer (job : Job) (s t : Sys α) : Prop :=
  (t.Cleaning job ∧ t.Arrived job) ∧ t.crossing job < s.crossing job

/-- A step that is a move. -/
theorem cross (ht : (job.opts 1).termTree = true) (h : s.Crossed job t) (he : t.Enabled job e)
    (hf : FirstOnly t e) (hb : e.Benign) (hx : x < job.size)
    (hcross : t.Crosses job (t.next job e) x) : job.benign.Leads t (s.Closer job) := by
  have hnext := h.next ht he hf
  exact Job.benign_next he hf hb (.here ⟨⟨hnext.cleaning, hnext.arrived⟩, h.move he hf hx hcross⟩)

/-- In `CIRCLE_barrier_test`, a rank makes the move it can make. -/
theorem cross_barrierReply (ht : (job.opts 1).termTree = true) (h : s.Crossed job t)
    (hpc : t.pc r = .barrierReply) (hcan : Wave.CanMove job.rootedTree t.barrier.wave r) :
    job.benign.Leads t (s.Closer job) := by
  have hW := h.cleaning.live.waves
  have hlt : r < job.size := (hW.once.coherent.ok r).lt_size (by simp [hpc])
  have htree := hW.once.tree_eq ((hW.once.coherent.ok r).stage_ne (by simp [hpc]))
  -- nothing is received, and the next part of the test is entered
  have hskip : t.Enabled job (.barrierReply r none) := ⟨hpc, by simp⟩
  have h' := h.next ht hskip trivial
  have hup : (t.next job (.barrierReply r none)).Enabled job (.barrierUp r) := by
    simp [Sys.Enabled, Sys.next]
  cases hcan with
  | recv c hc hup hm =>
      have he : t.Enabled job (.barrierReply r (some c)) := by
        refine ⟨hpc, fun q hq => ?_⟩
        obtain rfl : q = c := by simpa using hq
        exact ⟨by rw [htree]; exact hW.barrier.replies_lt hc hm, hm⟩
      exact cross ht h he trivial trivial (job.rootedTree.node_of_mem hc)
        (crosses_barrierReply he hW)
  | report hnot hall =>
      refine Job.benign_next hskip trivial trivial ?_
      have hready : (t.next job (.barrierReply r none)).barrier.Ready (job.tree 1 r) r :=
        ⟨hnot, hW.barrier.replies_of_counted hall⟩
      refine cross ht h' hup trivial trivial hlt ?_
      exact (crosses_barrierUp hup h'.cleaning.live.waves).resolve_left
        fun hearly => hearly.1 hready
  | answer p hp hm =>
      obtain ⟨m, _, _, hsent, _⟩ := hW.barrier.answered_of_answer hp hm
      refine Job.benign_next hskip trivial trivial ?_
      have h'' := h'.next ht hup trivial
      refine Job.benign_next hup trivial trivial ?_
      -- it has reported already
      have hsent : (t.barrier.st r).barrierUp = true := hsent
      have hwait : t.barrier.report (t.tree job r) r = (t.barrier, false) := by
        simp [BarrierNet.report, BarrierNet.Ready, hsent]
      have hbarrier : ((t.next job (.barrierReply r none)).next job (.barrierUp r)).barrier =
          t.barrier := congrArg Prod.fst hwait
      have hanswer : (t.tree job r).parentSent t.barrier.net r = true :=
        TreeState.parentSent_iff.mpr ⟨p, by rw [htree]; exact job.rootedTree.parent_of_mem hp, hm⟩
      have he : ((t.next job (.barrierReply r none)).next job (.barrierUp r)).Enabled job
          (.barrierDown r true) := by
        refine ⟨?_, fun _ => ?_⟩
        · have hnone : (t.barrier.report (t.tree job r) r).2 = false := congrArg Prod.snd hwait
          exact (Function.update_self ..).trans (congrArg (afterBarrier .barrierDown) hnone)
        · rw [hbarrier]
          exact ⟨hsent, hanswer⟩
      refine cross ht h'' he trivial trivial hlt ?_
      exact (crosses_barrierDown he h''.cleaning.live.waves).resolve_left
        fun hmiss => Bool.noConfusion hmiss.1

/-! ## All ranks complete the barrier -/

/-- Every rank has completed the barrier. -/
def Sys.AllPast (job : Job) (s : Sys α) : Prop := ∀ x, x < job.size → s.Past x

/-- While some rank has not completed the barrier, one of them can move. -/
theorem leads_closer (ht : (job.opts 1).termTree = true) (hC : s.Cleaning job)
    (hA : s.Arrived job) (hx : ¬s.AllPast job) : job.benign.Leads s (s.Closer job) := by
  have hL := hC.live
  obtain ⟨x, hxn, hxp⟩ : ∃ x, x < job.size ∧ ¬s.Past x := by
    simpa only [Sys.AllPast, not_forall, exists_prop] using hx
  obtain ⟨y, hy, hdone, hcan⟩ := hL.waves.barrier.exists_move job.rootedTree_wf (k := 1)
    ⟨x, hxn, Nat.lt_of_not_le fun hle => hxp ((past_iff hL.once).mpr hle)⟩
  have hnot : ¬s.Past y := fun hp => absurd ((past_iff hL.once).mp hp) (Nat.not_lt.mpr
    (Nat.le_of_lt_succ hdone))
  have hsolo := solo_cleanup (p := .barrierStart) hL.coherent (hC.stage_of_not_past hy hnot)
    (by decide)
  have halone := alone ht hL (J := s.Crossed job)
    (fun u e _ hv _ hq he => hv.next ht he (firstOnly_of_quiet hq)) ⟨hC, hA, .inl rfl⟩ hsolo
  refine halone.trans ?_
  rintro t ⟨hLt, _, hV, hend⟩
  rcases hV.wave with hwave | hless
  · have hnot' : ¬t.Past y := by
      rw [past_iff hLt.once]
      have hsame : (t.barrier.st y).completed = s.barrier.wave.done y :=
        congrFun (congrArg Wave.done hwave) y
      omega
    have hst := hV.cleaning.stage_of_not_past hy hnot'
    have hpc : t.pc y = .barrierStart := hend.resolve_left fun hgone => hgone hst
    have hstarted := (hV.arrived y hy).resolve_left hnot'
    have he : t.Enabled job (.barrierStart y) := hpc
    have hV' := hV.next ht he trivial
    have hpc' : (t.next job (.barrierStart y)).pc y = .barrierReply := by
      simp [Sys.next, hstarted]
    have hwave' : (t.next job (.barrierStart y)).barrier.wave = t.barrier.wave := by
      simp only [Sys.next]
      split
      · exact BarrierNet.wave_barrierStart t.barrier
      · rfl
    rw [← hwave, ← hwave'] at hcan
    exact Job.benign_next he trivial trivial (cross_barrierReply ht hV' hpc' hcan)
  · exact .here ⟨⟨hV.cleaning, hV.arrived⟩, hless⟩

/-- Some run takes every rank through the barrier. -/
theorem leads_past (ht : (job.opts 1).termTree = true) (hC : s.Cleaning job)
    (hA : s.Arrived job) :
    job.benign.Leads s fun t => (t.Cleaning job ∧ t.Arrived job) ∧ t.AllPast job := by
  refine EventSystem.Leads.descend (fun s => s.crossing job) (fun u hu hx => ?_) ⟨hC, hA⟩
  exact (leads_closer ht hu.1 hu.2 hx).mono fun t h => ⟨h.1, .inr h.2⟩

end Libcircle
