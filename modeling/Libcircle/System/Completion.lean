import Libcircle.System.AbortReduction
import Libcircle.System.Reports

/-!
# Every invocation can be completed

After the barrier no rank waits for a message that is not sent: a lowest rank that
is not through the final reduction can go on (`leads_through`), and then one of the
ranks in the abort reduction can (`leads_returned`).  With the phases before, every
run of an invocation with tree termination has a continuation in which all ranks
return from `CIRCLE_work_loop` (`tree_completes`).
-/

namespace Libcircle

variable {α : Type*} {job : Job} {s t : Sys α} {e : Event α} {r x p c : Rank}

/-! ## The abort reduction hears the children in order -/

theorem abortOrder_start (queue : Rank → List α) (abortFlag : Rank → Bool)
    (input : Rank → ReduceInput) (enqueued : List α) :
    Wave.InOrder job.rootedTree
      (Sys.start queue abortFlag input enqueued).abortReduce.wave :=
  Wave.inOrder_initial (fun _ => rfl) fun _ => rfl

theorem abortOrder_next (he : s.Enabled job e) (hW : s.Waves job)
    (h : Wave.InOrder job.rootedTree s.abortReduce.wave) :
    Wave.InOrder job.rootedTree (s.next job e).abortReduce.wave := by
  have hO := hW.once
  have hlt := (hO.coherent.ok _).rank_lt he
  cases e with
  | worksendWait r => exact (AbortReduceNet.wave_enter s.abortReduce _).symm ▸ h
  | reduceSyncDone r calls => exact (AbortReduceNet.wave_enter s.abortReduce _).symm ▸ h
  | abortReduceReply r =>
      obtain ⟨hpc, hindex, hm⟩ := he
      have htree := hO.tree_eq ((hO.coherent.ok r).stage_ne (by simp [hpc]))
      rw [htree] at hindex hm
      simp only [Sys.next, AbortReduceNet.wave_recvFlag, htree]
      exact h.recv hW.abort (TreeState.child_getElem? hindex) hm
  | abortReduceUp r =>
      obtain ⟨hpc, hindex⟩ := he
      have hok := hO.coherent.ok r
      have htree := hO.tree_eq (hok.stage_ne (by simp [hpc]))
      have hat := hok.position
      rw [hpc] at hat
      rw [htree] at hindex
      simp only [Sys.next, htree]
      obtain ⟨p, hp, hy⟩ | ⟨hp, hy⟩ := s.abortReduce.report_cases (job.tree 1 r) r
      · rw [hy, AbortReduceNet.wave_sendUp]
        exact h.send (job.mem_children hlt hp) hat.2.2.1 _
      · rw [hy, AbortReduceNet.wave_complete]
        obtain rfl := job.eq_root hlt hp
        exact h.release_root (hW.abort.counted_of_replies hindex) _
  | abortReduceDown r =>
      obtain ⟨hpc, hsent⟩ := he
      have htree := hO.tree_eq ((hO.coherent.ok r).stage_ne (by simp [hpc]))
      rw [htree] at hsent
      obtain ⟨p, hp, hm⟩ := TreeState.parentSent_iff.mp hsent
      simp only [Sys.next, htree, AbortReduceNet.await_eq _ _ _ hp,
        AbortReduceNet.wave_recvResult]
      exact h.answer hW.abort (job.mem_children hlt hp) hm _
  | _ => exact h

/-! ## What always holds, to the end -/

/-- What holds in one invocation with tree termination, with the final collectives. -/
structure Sys.Ending (job : Job) (s : Sys α) : Prop where
  live : s.Live job
  order : Wave.InOrder job.rootedTree s.abortReduce.wave
  reports : (job.opts 1).reduceEnabled = true → s.ReportPhase job

theorem ending_start (queue : Rank → List α) (abortFlag : Rank → Bool)
    (input : Rank → ReduceInput) (enqueued : List α) :
    (Sys.start queue abortFlag input enqueued).Ending job :=
  ⟨live_start .., abortOrder_start queue abortFlag input enqueued,
    fun _ => reportPhase_start queue abortFlag input enqueued⟩

theorem ending_next (ht : (job.opts 1).termTree = true) (he : s.Enabled job e)
    (hf : FirstOnly s e) (h : s.Ending job) : (s.next job e).Ending job where
  live := live_next ht he hf h.live
  order := abortOrder_next he h.live.waves h.order
  reports hen := reportPhase_next he hf h.live.waves h.live.draining.reduce hen (h.reports hen)

theorem ending_of_run (ht : (job.opts 1).termTree = true) {es : List (Event α)}
    (hrun : job.once.Run s es t) (h : s.Ending job) : t.Ending job :=
  hrun.restrict_invariant (fun _ _ hI hE hC => ending_next ht hE hC hI) h

/-- What a continuation reaches, it reaches with this. -/
theorem leads_ending {P : Sys α → Prop} (ht : (job.opts 1).termTree = true) (h : s.Ending job)
    (hlead : job.benign.Leads s P) : job.benign.Leads s fun t => t.Ending job ∧ P t :=
  hlead.invariant (fun _ _ hu he => ending_next ht he.1 he.2.1 hu) h

/-! ## The final reduction -/

/-- The steps left before `CIRCLE_abort_reduce`, with `n` children. -/
def Pc.before (n : Nat) : Pc → Nat
  | .worksendWait => n + 3
  | .reduceSync => n + 2
  | .reduceSyncReplies i => n + 1 - i
  | _ => 0

/-- The steps left before `CIRCLE_abort_reduce`, of all ranks. -/
def Sys.before (job : Job) (s : Sys α) : Nat :=
  ∑ r ∈ Finset.range job.size, (s.pc r).before (job.tree 1 r).children

theorem before_lt (hr : e.rank < job.size)
    (h : ((s.next job e).pc e.rank).before (job.tree 1 e.rank).children <
      (s.pc e.rank).before (job.tree 1 e.rank).children) :
    (s.next job e).before job < s.before job := by
  have hsum := sum_add_eq_of_ne (Finset.mem_range.mpr hr)
    (fun x => (s.pc x).before (job.tree 1 x).children)
    (fun x => ((s.next job e).pc x).before (job.tree 1 x).children) fun x hx => by
      have hloc : (s.next job e).loc x = s.loc x := loc_next_of_ne hx
      simp only [show (s.next job e).pc x = s.pc x from congrArg Loc.pc hloc]
  unfold Sys.before
  omega

/-- Every rank is past the barrier and in no collective of the tree but the abort reduction. -/
def Sys.AllThrough (job : Job) (s : Sys α) : Prop :=
  ∀ x, x < job.size → (s.pc x).collected = none

theorem allPast_next (he : s.Enabled job e) (hf : FirstOnly s e) (hO : s.Once job)
    (h : s.AllPast job) : (s.next job e).AllPast job :=
  fun x hx => past_next he hf hO (h x hx)

/-- A rank that is not through the final reduction can go on, if its children are. -/
theorem exists_before_lt (hE : s.Ending job) (hr : r < job.size) (hP : s.AllPast job)
    (hcoll : (s.pc r).collected ≠ none)
    (hchildren : ∀ c ∈ job.rootedTree.children r, (s.pc c).collected = none) :
    ∃ e, e.rank = r ∧ s.Enabled job e ∧ FirstOnly s e ∧ e.Benign ∧
      ((s.next job e).pc r).before (job.tree 1 r).children <
        (s.pc r).before (job.tree 1 r).children := by
  have hO := hE.live.once
  have hat := (hO.coherent.ok r).position
  cases hpc : s.pc r with
  | worksendWait =>
      refine ⟨.worksendWait r, rfl, hpc, trivial, trivial, ?_⟩
      simp only [Sys.next, Function.update_self]
      split <;> simp [Pc.before]
  | reduceSync =>
      refine ⟨.reduceSync r [], rfl, hpc, trivial, rfl, ?_⟩
      simp [Sys.next, Pc.before]
  | reduceSyncReplies i =>
      rw [hpc] at hat
      have hst : s.stage r = .after := hat.1
      have htree := hO.tree_eq (r := r) (by simp [hst])
      have hen : (job.opts 1).reduceEnabled = true := by
        rw [← hO.inv_eq (r := r) (by simp [hst])]
        exact hat.2.2.2.2.1
      have hle : i ≤ (s.tree job r).children := hat.2.2.2.2.2
      rw [htree] at hle
      rcases Nat.lt_or_eq_of_le hle with hlt | rfl
      · have hget := TreeState.child_getElem? hlt
        have hmem : (job.tree 1 r).child i ∈ job.rootedTree.children r :=
          TreeState.child_mem hlt
        have hthrough : (s.loc ((job.tree 1 r).child i)).point = none := by
          rw [point_of_past hO (hP _ (job.rootedTree.node_of_mem hmem))]
          exact hchildren _ hmem
        have hpoint : (s.loc r).point = some i := by
          rw [point_of_past hO (hP r hr), hpc]
          rfl
        have hready := (hE.reports hen ⟨r, hr, hP r hr⟩).ready r _ i i hget hthrough hpoint
          (Nat.le_refl i)
        have hindex : (s.pc r).index = i := by rw [hpc]; rfl
        refine ⟨.reduceSyncReply r [], rfl, ⟨by rw [hindex, hpc], by rwa [hindex, htree], ?_⟩,
          trivial, rfl, ?_⟩
        · rwa [Sys.child, htree, hindex]
        · simp only [Sys.next, Function.update_self, hindex, Pc.before]
          omega
      · refine ⟨.reduceSyncDone r [], rfl, ⟨by rw [hpc, htree], .inl rfl⟩, trivial, rfl, ?_⟩
        simp [Sys.next, Pc.before]
  | _ => exact absurd (by rw [hpc]; rfl) hcoll

/-- Some run takes every rank through the final reduction. -/
theorem leads_through (ht : (job.opts 1).termTree = true) (hE : s.Ending job)
    (hP : s.AllPast job) :
    job.benign.Leads s fun t => (t.Ending job ∧ t.AllPast job) ∧ t.AllThrough job := by
  refine EventSystem.Leads.descend (fun s => s.before job) (fun u hu hx => ?_) ⟨hE, hP⟩
  obtain ⟨hEu, hPu⟩ := hu
  obtain ⟨x, hxn, hxc⟩ : ∃ x, x < job.size ∧ (u.pc x).collected ≠ none := by
    simpa only [Sys.AllThrough, not_forall, exists_prop] using hx
  obtain ⟨r, ⟨hr, hcoll⟩, hmin⟩ := job.rootedTree_wf.has_min
    {y | y < job.size ∧ (u.pc y).collected ≠ none} ⟨x, hxn, hxc⟩
  obtain ⟨e, rfl, he, hf, hb, hlt⟩ := exists_before_lt hEu hr hPu hcoll fun c hc =>
    of_not_not fun hne => hmin c ⟨job.rootedTree.node_of_mem hc, hne⟩ hc
  exact Job.benign_next he hf hb (.here
    ⟨⟨ending_next ht he hf hEu, allPast_next he hf hEu.live.once hPu⟩, .inr (before_lt hr hlt)⟩)

/-! ## The abort reduction -/

/-- One rank is further on in the abort reduction. -/
def Sys.Sweeps (job : Job) (s t : Sys α) (r : Rank) : Prop :=
  Wave.Advances job.rootedTree s.abortReduce.wave t.abortReduce.wave r

/-- Every rank is past the final reduction, in the abort reduction or after it. -/
structure Sys.Sweeping (job : Job) (s : Sys α) : Prop where
  ending : s.Ending job
  past : s.AllPast job
  through : s.AllThrough job

theorem sweeping_next (ht : (job.opts 1).termTree = true) (he : s.Enabled job e)
    (hf : FirstOnly s e) (h : s.Sweeping job)
    (hpc : ((s.next job e).pc e.rank).collected = none) : (s.next job e).Sweeping job where
  ending := ending_next ht he hf h.ending
  past := allPast_next he hf h.ending.live.once h.past
  through x hx := by
    by_cases hxe : x = e.rank
    · exact hxe ▸ hpc
    · have hloc : (s.next job e).loc x = s.loc x := loc_next_of_ne hxe
      rw [show (s.next job e).pc x = s.pc x from congrArg Loc.pc hloc]
      exact h.through x hx

/-- A rank completes the abort reduction at most once, and then it has returned. -/
theorem progress_abort_le (hO : s.Once job) (x : Rank) :
    s.abortReduce.wave.progress job.rootedTree x ≤ 3 * 1 := by
  have hinv := hO.inv_le x
  have hok := hO.coherent.ok x
  have hat := hok.position
  by_cases hzero : (s.abortReduce.st x).completed = 0
  · have hdone : s.abortReduce.wave.done x = 0 := hzero
    exact Wave.progress_le_of_up (by omega) fun _ => by omega
  · -- it has returned, and waits for nothing
    have hrest : s.abortReduce.wave.done x ≤ 1 ∧ s.abortReduce.wave.up x = false := by
      rcases pc_of_completed hO hzero with hpc | hpc
      · have hst : (s.loc x).stage = .outside := (hok.requested_of_idle hpc).1
        have hcounted := hok.tidy.counted
        rw [hst] at hcounted
        have hcount : (s.abortReduce.st x).completed = s.inv x := hcounted.2
        exact ⟨hcount.trans_le hinv, (hok.tidy.abortReduce_reset (by simp [hst])).1⟩
      · rw [hpc] at hat
        obtain ⟨_, _, hresting, hcount⟩ := hat
        exact ⟨hcount.trans_le hinv, hresting.1⟩
    exact Wave.progress_le_of_up hrest.1 fun hup => absurd (hrest.2.symm.trans hup) (by decide)

/-- The moves left of the abort reduction. -/
def Sys.sweep (job : Job) (s : Sys α) : ℕ :=
  s.abortReduce.wave.remaining job.rootedTree (Finset.range job.size) 1

theorem sweep_lt (hO : t.Once job) (hx : x < job.size) (h : s.Sweeps job t x) :
    t.sweep job < s.sweep job :=
  Wave.remaining_lt (Finset.mem_range.mpr hx) h (progress_abort_le hO x) (Nat.le_refl 1)

/-- The rank is in the abort reduction. -/
theorem pc_of_sweeping (h : s.Sweeping job) (hx : x < job.size)
    (hzero : s.abortReduce.wave.done x = 0) :
    s.pc x = .abortReduce ∨ s.pc x = .abortReduceDown := by
  have hO := h.ending.live.once
  have hok := hO.coherent.ok x
  have hat := hok.position
  have hzero : (s.abortReduce.st x).completed = 0 := hzero
  rcases h.past x hx with hst | ⟨hst, hinv⟩
  · have hclosing := closing_of_stage hO hst
    have hthrough := h.through x hx
    cases hpc : s.pc x with
    | abortReduce => exact .inl rfl
    | abortReduceDown => exact .inr rfl
    | returned =>
        rw [hpc] at hat
        have hcount : (s.abortReduce.st x).completed = s.inv x := hat.2.2.2
        have hone := hO.inv_eq (r := x) (by simp [hst])
        omega
    | worksendWait | reduceSync | reduceSyncReplies i =>
        rw [hpc] at hthrough
        cases hthrough
    | _ =>
        rw [hpc] at hclosing
        cases hclosing
  · have hcounted := hok.tidy.counted
    rw [show (s.loc x).stage = _ from hst] at hcounted
    have hcount : (s.abortReduce.st x).completed = s.inv x := hcounted.2
    omega

/-- One of the ranks in the abort reduction can go on. -/
theorem exists_sweep (h : s.Sweeping job) (hx : x < job.size)
    (hzero : s.abortReduce.wave.done x = 0) :
    ∃ e y, y < job.size ∧ s.Enabled job e ∧ FirstOnly s e ∧ e.Benign ∧
      ((s.next job e).pc e.rank).collected = none ∧ s.Sweeps job (s.next job e) y := by
  have hO := h.ending.live.once
  have hW := h.ending.live.waves
  obtain ⟨y, hy, hdone, hwait⟩ := hW.abort.exists_waiting job.rootedTree_wf (k := 1)
    ⟨x, hx, by omega⟩
  have hpc := pc_of_sweeping h hy (by omega)
  have hy : y < job.size := hy
  have hat := (hO.coherent.ok y).position
  have htree := hO.tree_eq (r := y) ((hO.coherent.ok y).stage_ne (by
    rcases hpc with hpc | hpc <;> simp [hpc]))
  rcases hwait with ⟨p, hp, hm⟩ | ⟨hup, hall⟩
  · -- the result of its parent is there
    obtain ⟨m, _, _, hup, _⟩ := hW.abort.answered_of_answer hp hm
    have hup : (s.abortReduce.st y).waiting = true := hup
    have hpc : s.pc y = .abortReduceDown := hpc.resolve_left fun hpc => by
      rw [hpc] at hat
      have hup' : (s.abortReduce.st y).waiting = false := hat.2.2.1
      exact absurd (hup'.symm.trans hup) (by decide)
    have hparent : (job.tree 1 y).parentRank = some p := job.rootedTree.parent_of_mem hp
    have he : s.Enabled job (.abortReduceDown y) :=
      ⟨hpc, by rw [htree]; exact TreeState.parentSent_iff.mpr ⟨p, hparent, hm⟩⟩
    refine ⟨.abortReduceDown y, y, hy, he, trivial, trivial, ?_, ?_⟩
    · simp [Sys.next, Event.rank, Pc.collected]
    · rw [Sys.Sweeps]
      simp only [Sys.next, htree, AbortReduceNet.await_eq _ _ _ hparent,
        AbortReduceNet.wave_recvResult]
      exact Wave.advances_answer hp _
  · have hup' : (s.abortReduce.st y).waiting = false := hup
    have hpc : s.pc y = .abortReduce := hpc.resolve_right fun hpc => by
      rw [hpc] at hat
      have hwaiting : (s.abortReduce.st y).waiting = true := hat.2.2.1
      exact absurd (hup'.symm.trans hwaiting) (by decide)
    have hle : (s.abortReduce.st y).index ≤ (job.tree 1 y).children := hW.abort.replies_le y
    rcases Nat.lt_or_eq_of_le hle with hlt | heq
    · -- the flag of its next child is there
      have hget := TreeState.child_getElem? hlt
      have hm := h.ending.order.next_report hget hall
      have hmem := List.mem_of_getElem? hget
      have he : s.Enabled job (.abortReduceReply y) := by
        refine ⟨hpc, ?_, ?_⟩ <;> rw [htree]
        · exact hlt
        · exact hm
      refine ⟨.abortReduceReply y, _, job.rootedTree.node_of_mem hmem, he, trivial, trivial, ?_, ?_⟩
      · simp [Sys.next, Event.rank, hpc, Pc.collected]
      · rw [Sys.Sweeps]
        simp only [Sys.next, htree, AbortReduceNet.wave_recvFlag]
        exact hW.abort.advances_recv hmem hm
    · have he : s.Enabled job (.abortReduceUp y) := ⟨hpc, by rw [htree]; exact heq⟩
      refine ⟨.abortReduceUp y, y, hy, he, trivial, trivial, ?_, ?_⟩
      · simp only [Sys.next, Event.rank, Function.update_self]
        split <;> rfl
      · rw [Sys.Sweeps]
        simp only [Sys.next, htree]
        obtain ⟨p, hp, hreport⟩ | ⟨hp, hreport⟩ := s.abortReduce.report_cases (job.tree 1 y) y
        · rw [hreport, AbortReduceNet.wave_sendUp]
          exact Wave.advances_send (job.mem_children hy hp) hup _
        · rw [hreport, AbortReduceNet.wave_complete]
          exact Wave.advances_release _

/-! ## All ranks return -/

/-- Some run completes the abort reduction. -/
theorem leads_returned (ht : (job.opts 1).termTree = true) (h : s.Sweeping job) :
    job.benign.Leads s fun t => t.Sweeping job ∧ ∀ r, r < job.size → t.Returned r := by
  refine EventSystem.Leads.descend (fun s => s.sweep job) (fun u hu hx => ?_) h
  have hO := hu.ending.live.once
  obtain ⟨x, hxn, hxr⟩ : ∃ x, x < job.size ∧ ¬u.Returned x := by
    simpa only [not_forall, exists_prop] using hx
  have hzero : u.abortReduce.wave.done x = 0 := by
    by_contra hne
    rcases pc_of_completed hO hne with hpc | hpc
    · refine hxr (.inr ⟨hpc, ?_⟩)
      have hst := ((hO.coherent.ok x).requested_of_idle hpc).1
      have hpos := ((hu.past x hxn).resolve_left fun hafter => by
        cases hst.symm.trans hafter).2
      have hle := hO.inv_le x
      omega
    · exact hxr (.inl hpc)
  obtain ⟨e, y, hy, he, hf, hb, hpc, hsweep⟩ := exists_sweep hu hxn hzero
  have hnext := sweeping_next ht he hf hu hpc
  exact Job.benign_next he hf hb (.here ⟨hnext, .inr (sweep_lt hnext.ending.live.once hy hsweep)⟩)

/-- Tree mode never gets stuck.  From every state of an invocation with tree termination, some run
whose callbacks dequeue one item at most, and do nothing else, ends with all ranks returned from
`CIRCLE_work_loop`. -/
theorem tree_completes (ht : (job.opts 1).termTree = true) {queue : Rank → List α}
    {abortFlag : Rank → Bool} {input : Rank → ReduceInput} {enqueued : List α}
    {es : List (Event α)}
    (hrun : job.once.Run (Sys.start queue abortFlag input enqueued) es s) :
    ∃ fs t, job.benign.Run s fs t ∧ ∀ r, r < job.size → t.Returned r := by
  have hE := ending_of_run ht hrun (ending_start queue abortFlag input enqueued)
  have hlead : job.benign.Leads s fun t => t.AllPast job := by
    refine (leads_begun ht hE.live).trans fun t h => ?_
    obtain ⟨hL, hB⟩ := h
    refine (leads_settled ht hL hB).trans fun t h => ?_
    obtain ⟨⟨hL, _⟩, hS⟩ := h
    refine (leads_left ht hL hS).trans fun t h => ?_
    obtain ⟨⟨hL, hS⟩, hleft⟩ := h
    refine (leads_arrived ht ⟨hL, hS, hleft⟩).trans fun t h => ?_
    exact (leads_past ht h.1 h.2).mono fun t h => h.2
  have hall : job.benign.Leads s fun t => ∀ r, r < job.size → t.Returned r := by
    refine (leads_ending ht hE hlead).trans fun t h => ?_
    refine (leads_through ht h.1 h.2).trans fun t h => ?_
    exact (leads_returned ht ⟨h.1.1, h.1.2, h.2⟩).mono fun t h => h.2
  obtain ⟨fs, t, hrun', hret⟩ := hall
  exact ⟨fs, t, hrun', hret⟩

/-- Two ranks, of which one has called `CIRCLE_abort`. -/
theorem tree_completes_abortEarly :
    ∃ fs t, treePair.benign.Run (treePair.once.follow .fresh abortEarly) fs t ∧
      ∀ r, r < treePair.size → t.Returned r :=
  have hrun : treePair.once.Run .fresh abortEarly (treePair.once.follow .fresh abortEarly) :=
    .of_admits (by decide +kernel)
  tree_completes (by decide) hrun

end Libcircle
