import Libcircle.System.Dismissal
import Libcircle.System.Drain

/-!
# Continuing an invocation

A continuation that brings an invocation to its end needs no library calls but one
`CIRCLE_dequeue` in a process callback (`Event.Benign`).  `Sys.Live` collects what
holds in every state of an invocation with tree termination.

A rank running alone comes to each stop of the loop it is in, in this pass or in
the next one, unless it leaves the loop on the way, or has an item to process in
the main loop (`solo_main`, `solo_cleanup`).
-/

namespace Libcircle

variable {α : Type*} {job : Job} {s t : Sys α} {e : Event α} {r : Rank} {p : Pc}

/-! ## Benign events -/

/-- The event makes no library call, or its process callback dequeues one item. -/
def Event.Benign : Event α → Prop
  | .begin _ _ ops => ops = []
  | .process _ ops => ops = [.dequeue]
  | .reduceBegin _ _ _ calls | .reduceReply _ _ calls | .reduceDone _ calls
  | .reduceSync _ calls | .reduceSyncReply _ calls | .reduceSyncDone _ calls => calls = []
  | _ => True

/-- The system with one invocation and benign events only. -/
def Job.benign (job : Job) : EventSystem (Sys α) (Event α) :=
  job.step.restrict fun s e => FirstOnly s e ∧ e.Benign

theorem benign_of_quiet (hq : e.Quiet) : e.Benign := by
  cases e with
  | begin | process | reduceSync | reduceSyncReply | reduceSyncDone => exact hq.elim
  | reduceBegin r due hit calls => exact hq.2.2
  | reduceReply r hit calls => exact hq.2
  | reduceDone r calls => exact hq
  | _ => exact trivial

/-! ## What always holds -/

/-- What holds in one invocation with tree termination. -/
structure Sys.Live (job : Job) (s : Sys α) : Prop where
  draining : s.Draining job
  dismissal : s.vote.Dismissal job.rootedTree
  /-- The token is not used. -/
  token : ∀ r, (s.token.st r).tokenSendReq = false
  /-- A reduction is outstanding only where reductions are enabled. -/
  reducing : ∀ r, (s.reduce.st r).outstanding = true → (job.opts 1).reduceEnabled = true

namespace Sys.Live

variable (h : s.Live job)
include h

theorem waves : s.Waves job := h.draining.term.waves

theorem once : s.Once job := h.waves.once

theorem coherent : s.Coherent job := h.once.coherent

theorem accounted : s.work.Accounted job.size s.inv := h.draining.term.accounted

theorem matched : s.work.Matched job.size := h.coherent.matched

end Sys.Live

theorem live_start (queue : Rank → List α) (abortFlag : Rank → Bool)
    (input : Rank → ReduceInput) (enqueued : List α) :
    (Sys.start queue abortFlag input enqueued).Live job :=
  ⟨draining_start .., dismissal_start .., fun _ => rfl, fun _ h => nomatch h⟩

/-- With tree termination no token is sent. -/
theorem tokenSendReq_next (ht : (job.opts 1).termTree = true) (he : s.Enabled job e)
    (hO : s.Once job) (h : ∀ r, (s.token.st r).tokenSendReq = false) (r : Rank) :
    ((s.next job e).token.st r).tokenSendReq = false := by
  by_cases hr : r = e.rank
  · subst hr
    have hat := (hO.coherent.ok e.rank).position
    have hinv := hO.inv_eq (r := e.rank)
    cases e with
    | begin r next ops => simp [Sys.next, Event.rank, TokenNet.init, TokenNet.set]
    | sendWork r count =>
        simp only [Sys.next, Event.rank]
        split
        · exact h r
        · unfold TokenNet.blacken
          split
          · simpa [TokenNet.set] using h r
          · exact h r
    | token r hit =>
        rw [show s.pc (Event.token (α := α) r hit).rank = _ from he.1] at hat
        have htree : (job.opts (s.inv r)).termTree = false := hat.2.2.1
        rw [show s.inv r = 1 from hinv (by simp [show s.stage _ = .main from hat.1]), ht] at htree
        cases htree
    | tokenDrain r hit done =>
        rw [show s.pc (Event.tokenDrain (α := α) r hit done).rank = _ from he.1] at hat
        have htree : (job.opts (s.inv r)).termTree = false := hat.2.2
        rw [show s.inv r = 1 from hinv (by simp [show s.stage _ = .cleanup from hat.1]),
          ht] at htree
        cases htree
    | _ => exact h _
  · have hloc : (s.next job e).loc r = s.loc r := loc_next_of_ne hr
    exact (congrArg (fun l => l.token.tokenSendReq) hloc).trans (h r)

theorem reducing_next (he : s.Enabled job e) (hO : s.Once job)
    (h : ∀ r, (s.reduce.st r).outstanding = true → (job.opts 1).reduceEnabled = true) (r : Rank)
    (hout : ((s.next job e).reduce.st r).outstanding = true) :
    (job.opts 1).reduceEnabled = true := by
  by_cases hr : r = e.rank
  · subst hr
    cases e with
    | begin r next ops => simp [Sys.next, Event.rank, ReduceNet.init, ReduceNet.set] at hout
    | reduceBegin r due hit calls =>
        obtain ⟨hpc, hen, _⟩ := he
        have hne := (hO.coherent.ok r).stage_ne (show s.pc r ≠ .idle by simp [hpc])
        rwa [Sys.opts, hO.inv_eq hne] at hen
    | reduceReply r hit calls =>
        refine h r ?_
        rw [← reduce_reply_outstanding s.reduce hit (s.child job r)]
        exact hout
    | reduceDone r calls =>
        refine of_not_not fun hno => ?_
        have hidle : (s.reduce.st r).outstanding = false :=
          Bool.eq_false_iff.mpr fun ho => hno (h r ho)
        have hidle' := finish_outstanding s.reduce (s.tree job r) (s.objects r) hidle
        exact absurd (hidle'.symm.trans hout) (by decide)
    | reduceSync r calls =>
        refine h r ?_
        simpa [Sys.next, Event.rank, ReduceNet.callback, ReduceNet.syncBegin, ReduceNet.set]
          using hout
    | reduceSyncReply r calls => exact h r ((recvSync_outstanding _ _).symm.trans hout)
    | reduceSyncDone r calls => exact h r ((syncFinish_outstanding _ _).symm.trans hout)
    | _ => exact h _ hout
  · have hloc : (s.next job e).loc r = s.loc r := loc_next_of_ne hr
    exact h r ((congrArg (fun l => l.reduce.outstanding) hloc).symm.trans hout)

theorem live_next (ht : (job.opts 1).termTree = true) (he : s.Enabled job e)
    (hf : FirstOnly s e) (h : s.Live job) : (s.next job e).Live job where
  draining := draining_next ht he hf h.draining
  dismissal := dismissal_next ht he hf h.waves h.dismissal
  token := tokenSendReq_next ht he h.once h.token
  reducing := reducing_next he h.once h.reducing

/-- A benign step. -/
theorem Job.benign_next {P : Sys α → Prop} (he : s.Enabled job e) (hf : FirstOnly s e)
    (hb : e.Benign) (h : job.benign.Leads (s.next job e) P) : job.benign.Leads s P :=
  .cons ⟨he, hf, hb⟩ h

/-! ## A rank running alone -/

theorem Sys.Elsewhere.refl (s : Sys α) (r : Rank) : s.Elsewhere s r :=
  ⟨fun _ _ => rfl, fun _ _ _ => rfl⟩

theorem Sys.Elsewhere.next (h : s.Elsewhere t r) (hr : e.rank = r) (hq : e.Quiet) :
    s.Elsewhere (t.next job e) r where
  loc x hx := (loc_next_of_ne (hr ▸ hx)).trans (h.loc x hx)
  mail x hx y := (mail_next hq (hr ▸ hx)).trans (h.mail x hx y)

/-- A run of one rank is benign, and what its quiet steps keep holds at its end. -/
theorem alone (ht : (job.opts 1).termTree = true) {J P : Sys α → Prop} (hL : s.Live job)
    (hJ : ∀ u e, u.Live job → J u → e.rank = r → e.Quiet → u.Enabled job e → J (u.next job e))
    (hs : J s) (h : (job.solo r).Leads s P) :
    job.benign.Leads s fun t => t.Live job ∧ s.Elsewhere t r ∧ J t ∧ P t := by
  have hstep : ∀ u e, (u.Live job ∧ s.Elsewhere u r ∧ J u) → (job.solo r).Enabled u e →
      ((u.next job e).Live job ∧ s.Elsewhere (u.next job e) r ∧ J (u.next job e)) := by
    rintro u e ⟨hu, hels, hj⟩ ⟨he, hr, hq⟩
    exact ⟨live_next ht he (firstOnly_of_quiet hq) hu, hels.next hr hq, hJ u e hu hj hr hq he⟩
  have hlead := h.invariant hstep ⟨hL, .refl s r, hs⟩
  refine (hlead.restrict_mono (S := job.step) fun _ _ hq => ?_).mono fun t ht => ?_
  · exact ⟨firstOnly_of_quiet hq.2, benign_of_quiet hq.2⟩
  · exact ⟨ht.1.1, ht.1.2.1, ht.1.2.2, ht.2⟩

/-- One quiet step more. -/
theorem solo_next {P : Sys α → Prop} (he : s.Enabled job e) (hr : e.rank = r) (hq : e.Quiet)
    (h : (job.solo r).Leads (s.next job e) P) : (job.solo r).Leads s P :=
  .cons ⟨he, hr, hq⟩ h

theorem coherent_solo {P : Sys α → Prop} (hcoh : s.Coherent job) (h : (job.solo r).Leads s P) :
    (job.solo r).Leads s fun t => t.Coherent job ∧ t.inv = s.inv ∧ P t := by
  have hstep : ∀ (u : Sys α) e, (u.Coherent job ∧ u.inv = s.inv) → (job.solo r).Enabled u e →
      ((u.next job e).Coherent job ∧ (u.next job e).inv = s.inv) := by
    rintro u e ⟨hu, hinv⟩ ⟨he, _, hq⟩
    exact ⟨coherent_next he hu, (quiet_inv hq).trans hinv⟩
  exact (h.invariant hstep ⟨hcoh, rfl⟩).mono fun t ht => ⟨ht.1.1, ht.1.2, ht.2⟩

/-! ## In the main loop -/

/-- With tree termination, every position of the main loop is before the choice between
processing an item and checking for termination. -/
theorem height_pos_main (ht : (job.opts (s.inv r)).termTree = true) (hcoh : s.Coherent job)
    (hst : s.stage r = .main) : 1 ≤ (s.pc r).height .main := by
  have hat := (hcoh.ok r).position
  cases hp : s.pc r with
  | token =>
      rw [hp] at hat
      exact absurd (ht.symm.trans hat.2.2.1) (by decide)
  | idle | barrierStart | barrierReply | barrierUp | barrierDown | tokenDrain | worksendWait
  | reduceSync | reduceSyncReplies | abortReduce | abortReduceDown | returned =>
      rw [hp] at hat
      exact absurd (hst.symm.trans hat.1) (by decide)
  | _ => simp [Pc.height]

/-- Alone, a rank in the main loop comes to the head of the termination allreduce, unless it leaves
the loop or finds an item to process. -/
theorem solo_termReplies (ht : (job.opts (s.inv r)).termTree = true) (hcoh : s.Coherent job)
    (hst : s.stage r = .main) :
    (job.solo r).Leads s fun t =>
      t.stage r ≠ .main ∨ (t.pc r = .work ∧ t.Busy r) ∨ t.pc r = .termReplies := by
  have hwork := solo_to (.inl rfl) (p := .work) (by decide) hcoh hst (height_pos_main ht hcoh hst)
  refine (coherent_solo hcoh hwork).trans fun u ⟨_, hinv, hor⟩ => ?_
  rcases hor with hleft | hpc
  · exact .here (.inl hleft)
  · by_cases hb : u.Busy r
    · exact .here (.inr (.inl ⟨hpc, hb⟩))
    · refine solo_next (e := .checkForTerm r) ⟨hpc, hb⟩ rfl trivial (.here (.inr (.inr ?_)))
      simp [Sys.next, Sys.opts, hinv, ht]

/-- Alone, a rank in the main loop comes to each of its stops, unless it leaves the loop or finds an
item to process. -/
theorem solo_main (ht : (job.opts (s.inv r)).termTree = true) (hcoh : s.Coherent job)
    (hst : s.stage r = .main) (hp : p ∈ Stage.main.stops) :
    (job.solo r).Leads s fun t =>
      t.stage r ≠ .main ∨ (t.pc r = .work ∧ t.Busy r) ∨ t.pc r = p := by
  refine (coherent_solo hcoh (solo_termReplies ht hcoh hst)).trans fun u ⟨hcoh', hinv, hor⟩ => ?_
  rcases hor with hleft | hbusy | hpc
  · exact .here (.inl hleft)
  · exact .here (.inr (.inl hbusy))
  · by_cases hst' : u.stage r = .main
    · have hle : p.height .main ≤ (u.pc r).height .main := by
        rw [hpc]
        simp only [Stage.stops, List.mem_cons, List.not_mem_nil, or_false] at hp
        rcases hp with rfl | rfl | rfl <;> decide
      exact (solo_to (.inl rfl) hp hcoh' hst' hle).mono fun t => .imp_right .inr
    · exact .here (.inl hst')

/-! ## In the cleanup loop -/

theorem height_pos_cleanup (hcoh : s.Coherent job) (hst : s.stage r = .cleanup) :
    1 ≤ (s.pc r).height .cleanup := by
  have hat := (hcoh.ok r).position
  cases hp : s.pc r with
  | idle | sendWork | workreceipt | work | termReplies | termUp | termDown | token
  | worksendWait | reduceSync | reduceSyncReplies | abortReduce | abortReduceDown | returned =>
      rw [hp] at hat
      exact absurd (hst.symm.trans hat.1) (by decide)
  | _ => simp [Pc.height]

/-- Alone, a rank in the cleanup loop comes to each of its stops, unless it leaves the loop. -/
theorem solo_cleanup (hcoh : s.Coherent job) (hst : s.stage r = .cleanup)
    (hp : p ∈ Stage.cleanup.stops) :
    (job.solo r).Leads s fun t => t.stage r ≠ .cleanup ∨ t.pc r = p := by
  have hstart := solo_to (.inr rfl) (p := .barrierStart) (by decide) hcoh hst
    (height_pos_cleanup hcoh hst)
  refine (coherent_solo hcoh hstart).trans fun u ⟨hcoh', _, hor⟩ => ?_
  rcases hor with hleft | hpc
  · exact .here (.inl hleft)
  · have he : u.Enabled job (.barrierStart r) := hpc
    refine solo_next he rfl trivial ?_
    by_cases hst' : u.stage r = .cleanup
    · -- a new pass, or the barrier test of this one
      have hle : p.height .cleanup ≤
          ((u.next job (.barrierStart r)).pc r).height .cleanup := by
        simp only [Stage.stops, List.mem_cons, List.not_mem_nil, or_false] at hp
        simp only [Sys.next, Function.update_self]
        split <;> rcases hp with rfl | rfl | rfl | rfl | rfl | rfl | rfl <;> decide
      exact solo_to (.inr rfl) hp (coherent_next he hcoh') hst' hle
    · exact .here (.inl hst')

end Libcircle
