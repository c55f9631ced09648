import Libcircle.Lib.Turns
import Libcircle.System.Waves

/-!
# The barrier and the abort reduction over many invocations

Every invocation may use a tree of another width.  Invocation `k` completes the
`k`-th barrier and the `k`-th abort reduction, on the tree of that invocation
(`Sys.Turns`).  The two keep the ranks together.  While a rank is in the loops, no
rank is in a later invocation (`Turns.inv_le_of_looping`), and once a rank is past
the barrier, no rank is in an earlier one (`Turns.inv_le_of_after`).  This holds
along every run of any number of invocations (`turns_of_run`).
-/

namespace Libcircle

variable {α : Type*} {job : Job} {s t : Sys α} {e : Event α} {r x : Nat}

/-! ## Counting rounds -/

/-- The number of barriers a rank completed. -/
def Sys.barriers (s : Sys α) (r : Nat) : Nat := (s.barrier.st r).completed

/-- The number of abort reductions a rank completed. -/
def Sys.reductions (s : Sys α) (r : Nat) : Nat := (s.abortReduce.st r).completed

namespace Sys.Ok

/-- Past the barrier, the abort reduction is still to be completed, or has just been. -/
theorem reductions_of_after (h : s.Ok job r) (hst : s.stage r = .after) :
    s.reductions r + 1 = s.inv r ∨
      (s.reductions r = s.inv r ∧ (s.abortReduce.st r).waiting = false) := by
  have hat := h.position
  have hl : (s.loc r).stage = .after := hst
  cases hpc : s.pc r with
  | worksendWait =>
      rw [hpc] at hat
      exact .inl hat.2.2.2
  | reduceSync | reduceSyncReplies | abortReduce | abortReduceDown =>
      rw [hpc] at hat
      exact .inl hat.2.2.2.1
  | returned =>
      rw [hpc] at hat
      obtain ⟨_, _, hrest, hdone⟩ := hat
      exact .inr ⟨hdone, hrest.1⟩
  | _ =>
      rw [hpc] at hat
      simp [Loc.At, Loc.Looping, hl] at hat

/-- A rank that waits for the result of the abort reduction is past the barrier. -/
theorem of_waiting (h : s.Ok job r) (hw : (s.abortReduce.st r).waiting = true) :
    s.stage r = .after ∧ s.reductions r + 1 = s.inv r := by
  have hst : s.stage r = .after := by
    by_contra hne
    exact absurd ((h.tidy.abortReduce_reset hne).1.symm.trans hw) (by decide)
  rcases h.reductions_of_after hst with hred | ⟨_, hw'⟩
  · exact ⟨hst, hred⟩
  · exact absurd (hw'.symm.trans hw) (by decide)

/-- A rank that waits for the release of the barrier is in the cleanup loop. -/
theorem of_barrierUp (h : s.Ok job r) (hup : (s.barrier.st r).barrierUp = true) :
    s.stage r = .cleanup := by
  by_contra hne
  exact absurd ((h.tidy.barrier_started (h.tidy.barrier_reset hne)).1.symm.trans hup) (by decide)

theorem barriers_eq_of_after (h : s.Ok job r) (hst : s.stage r = .after) :
    s.barriers r = s.inv r := by
  have hc := h.tidy.counted
  rw [show (s.loc r).stage = .after from hst] at hc
  exact hc.1

theorem counted_of_looping (h : s.Ok job r) (hl : (s.loc r).Looping) :
    s.barriers r + 1 = s.inv r ∧ s.reductions r + 1 = s.inv r ∧
      (s.abortReduce.st r).waiting = false := by
  obtain ⟨hb, hred⟩ := h.tidy.counted_looping hl
  refine ⟨hb, hred, (h.tidy.abortReduce_reset ?_).1⟩
  rcases hl with hl | hl <;> simp [hl]

/-- The counts of a rank, and whether it waits for the abort reduction. -/
theorem counts (h : s.Ok job r) :
    (s.barriers r + 1 = s.inv r ∧ s.reductions r + 1 = s.inv r) ∨
      (s.barriers r = s.inv r ∧ (s.reductions r + 1 = s.inv r ∨ s.reductions r = s.inv r)) := by
  have hc := h.tidy.counted
  cases hst : s.stage r with
  | main => exact .inl ⟨(h.counted_of_looping (.inl hst)).1, (h.counted_of_looping (.inl hst)).2.1⟩
  | cleanup =>
      exact .inl ⟨(h.counted_of_looping (.inr hst)).1, (h.counted_of_looping (.inr hst)).2.1⟩
  | after =>
      exact .inr ⟨h.barriers_eq_of_after hst, (h.reductions_of_after hst).imp id And.left⟩
  | outside =>
      rw [show (s.loc r).stage = .outside from hst] at hc
      exact .inr ⟨hc.1, .inr hc.2⟩

end Sys.Ok

/-! ## The two waves -/

/-- The barrier and the abort reduction are each in one round. -/
structure Sys.Turns (job : Job) (s : Sys α) : Prop where
  coherent : s.Coherent job
  barrier : ∃ k, s.barrier.wave.Turn job.trees k
  abort : ∃ k, s.abortReduce.wave.Turn job.trees k

namespace Sys.Turns

variable (h : s.Turns job)
include h

/-- While a rank is in the loops, no rank is in a later invocation. -/
theorem inv_le_of_looping (hr : r < job.size) (hx : x < job.size) (hl : (s.loc r).Looping) :
    s.inv x ≤ s.inv r := by
  obtain ⟨k, hk⟩ := h.abort
  obtain ⟨_, hred, hw⟩ := (h.coherent.ok r).counted_of_looping hl
  have hle : s.reductions x ≤ s.reductions r := by
    by_contra hlt
    have hup := hk.up_of_done_lt hx hr (Nat.lt_of_not_le hlt)
    exact absurd (hw.symm.trans hup) (by decide)
  rcases (h.coherent.ok x).counts with ⟨_, hredx⟩ | ⟨_, hredx | hredx⟩ <;> omega

/-- Once a rank is past the barrier, no rank is in an earlier invocation. -/
theorem inv_le_of_after (hr : r < job.size) (hx : x < job.size) (hst : s.stage r = .after) :
    s.inv r ≤ s.inv x := by
  obtain ⟨k, hk⟩ := h.barrier
  have hb := (h.coherent.ok r).barriers_eq_of_after hst
  by_cases hle : s.barriers r ≤ s.barriers x
  · rcases (h.coherent.ok x).counts with ⟨hbx, _⟩ | ⟨hbx, _⟩ <;> omega
  · -- `x` waits for the release of the barrier that `r` has left
    have hup := hk.up_of_done_lt hr hx (Nat.lt_of_not_le hle)
    have hnear : s.barriers r ≤ s.barriers x + 1 := hk.done_le hr hx
    have hcl := (h.coherent.ok x).of_barrierUp hup
    have hbx := ((h.coherent.ok x).counted_of_looping (.inr hcl)).1
    omega

/-- While a rank is in the loops, all ranks have left the last barrier. -/
theorem barriers_le (hr : r < job.size) (hx : x < job.size) (hl : (s.loc r).Looping) :
    s.barriers r ≤ s.barriers x := by
  obtain ⟨k, hk⟩ := h.abort
  obtain ⟨hb, hred, _⟩ := (h.coherent.ok r).counted_of_looping hl
  by_cases hle : s.reductions r ≤ s.reductions x
  · rcases (h.coherent.ok x).counts with ⟨hbx, hredx⟩ | ⟨hbx, hredx | hredx⟩ <;> omega
  · -- `x` waits for the result that `r` has received
    have hup := hk.up_of_done_lt hr hx (Nat.lt_of_not_le hle)
    have hnear : s.reductions r ≤ s.reductions x + 1 := hk.done_le hr hx
    obtain ⟨hst, hredx⟩ := (h.coherent.ok x).of_waiting hup
    have hbx := (h.coherent.ok x).barriers_eq_of_after hst
    omega

/-- Once a rank is past the barrier, all ranks have completed the last abort reduction. -/
theorem reductions_le (hr : r < job.size) (hx : x < job.size) (hst : s.stage r = .after)
    (hred : s.reductions r + 1 = s.inv r) : s.reductions r ≤ s.reductions x := by
  have hle := h.inv_le_of_after hr hx hst
  rcases (h.coherent.ok x).counts with ⟨_, hredx⟩ | ⟨_, hredx | hredx⟩ <;> omega

/-- A rank in the loops takes part in the barrier of its invocation. -/
theorem barrier_turn (hr : r < job.size) (hl : (s.loc r).Looping) :
    s.barrier.wave.Turn job.trees (s.inv r) := by
  obtain ⟨k, hk⟩ := h.barrier
  have hb := ((h.coherent.ok r).counted_of_looping hl).1
  rw [← hb]
  exact hk.of_done_le (fun _ _ _ hx => hx) hr fun x hx => h.barriers_le hr hx hl

/-- A rank past the barrier takes part in the abort reduction of its invocation. -/
theorem abort_turn (hr : r < job.size) (hst : s.stage r = .after)
    (hred : s.reductions r + 1 = s.inv r) :
    s.abortReduce.wave.Turn job.trees (s.inv r) := by
  obtain ⟨k, hk⟩ := h.abort
  rw [← hred]
  exact hk.of_done_le (fun _ _ _ hx => hx) hr fun x hx => h.reductions_le hr hx hst hred

end Sys.Turns

/-! ## The steps -/

theorem turns_start (queue : Rank → List α) (abortFlag : Rank → Bool)
    (input : Rank → ReduceInput) (enqueued : List α) :
    (Sys.start queue abortFlag input enqueued).Turns job where
  coherent := coherent_start ..
  barrier := ⟨0, .initial (fun _ => rfl) (fun _ => rfl) (fun _ => rfl) fun _ _ => rfl⟩
  abort := ⟨0, .initial (fun _ => rfl) (fun _ => rfl) (fun _ => rfl) fun _ _ => rfl⟩

/-- A rank at the barrier is in its loops. -/
theorem looping_of_cleanup (hst : s.stage r = .cleanup) : (s.loc r).Looping := .inr hst

theorem barrierTurn_next (he : s.Enabled job e) (h : s.Turns job) :
    ∃ k, (s.next job e).barrier.wave.Turn job.trees k := by
  have hlt := (h.coherent.ok _).rank_lt he
  have hat := (h.coherent.ok e.rank).position
  cases e with
  | begin r next ops =>
      have hst := ((h.coherent.ok r).requested_of_idle he.1).1
      have hnot := (h.coherent.ok r).tidy.barrier_reset (by simp [Sys.loc, hst])
      have hreset := (h.coherent.ok r).tidy.barrier_started hnot
      exact (BarrierNet.wave_init s.barrier hreset).symm ▸ h.barrier
  | barrierStart r =>
      simp only [Sys.next]
      split
      · exact (BarrierNet.wave_barrierStart s.barrier).symm ▸ h.barrier
      · exact h.barrier
  | barrierReply r src =>
      obtain ⟨hpc, hsrc⟩ := he
      rw [show s.pc (Event.barrierReply (α := α) r src).rank = _ from hpc] at hat
      cases src with
      | none => exact h.barrier
      | some q =>
          obtain ⟨hpend, hm⟩ := hsrc q (by simp)
          have hk := h.barrier_turn hlt (looping_of_cleanup hat.1)
          simp only [Sys.next, BarrierNet.wave_recvArrival]
          exact ⟨_, hk.recv (hk.inv.child_of_pending hpend hm) hm⟩
  | barrierUp r =>
      rw [show s.pc (Event.barrierUp (α := α) r).rank = _ from he] at hat
      have hl := looping_of_cleanup hat.1
      have hk := h.barrier_turn hlt hl
      have hdone := ((h.coherent.ok r).counted_of_looping hl).1
      simp only [Sys.next]
      obtain ⟨_, hy⟩ | ⟨p, hready, hp, hy⟩ | ⟨hready, hp, hy⟩ :=
        s.barrier.report_cases (s.tree job r) r
      · rw [hy]
        exact h.barrier
      · rw [hy, BarrierNet.wave_sendUp]
        exact ⟨_, hk.send (job.mem_trees_children hlt hp) hready.1
          (hk.inv.counted_of_replies hready.2) hdone _⟩
      · rw [hy, BarrierNet.wave_complete]
        exact ⟨_, hk.release_root (job.eq_trees_root hlt hp)
          (hk.inv.counted_of_replies hready.2) hdone _⟩
  | barrierDown r hit =>
      obtain ⟨hpc, hhit⟩ := he
      rw [show s.pc (Event.barrierDown (α := α) r hit).rank = _ from hpc] at hat
      have hk := h.barrier_turn hlt (looping_of_cleanup hat.1)
      simp only [Sys.next]
      obtain hy | ⟨p, hp, rfl, hy⟩ := s.barrier.await_cases (s.tree job r) r hit
      · rw [hy]
        exact h.barrier
      · obtain ⟨p', hp', hm⟩ := TreeState.parentSent_iff.mp (hhit rfl).2
        obtain rfl : p = p' := Option.some.inj (hp.symm.trans hp')
        rw [hy, BarrierNet.wave_recvRelease]
        exact ⟨_, hk.answer (job.mem_trees_children hlt hp) hm _⟩
  | _ => exact h.barrier

theorem abortTurn_next (he : s.Enabled job e) (h : s.Turns job) :
    ∃ k, (s.next job e).abortReduce.wave.Turn job.trees k := by
  have hlt := (h.coherent.ok _).rank_lt he
  have hat := (h.coherent.ok e.rank).position
  cases e with
  | worksendWait r => exact (AbortReduceNet.wave_enter s.abortReduce _).symm ▸ h.abort
  | reduceSyncDone r calls => exact (AbortReduceNet.wave_enter s.abortReduce _).symm ▸ h.abort
  | abortReduceReply r =>
      obtain ⟨hpc, hindex, hm⟩ := he
      rw [show s.pc (Event.abortReduceReply (α := α) r).rank = _ from hpc] at hat
      have hk := h.abort_turn hlt hat.1 hat.2.2.2.1
      simp only [Sys.next, AbortReduceNet.wave_recvFlag]
      exact ⟨_, hk.recv (TreeState.child_mem hindex) hm⟩
  | abortReduceUp r =>
      obtain ⟨hpc, hindex⟩ := he
      rw [show s.pc (Event.abortReduceUp (α := α) r).rank = _ from hpc] at hat
      have hdone : s.reductions r + 1 = s.inv r := hat.2.2.2.1
      have hk := h.abort_turn hlt hat.1 hdone
      simp only [Sys.next]
      obtain ⟨p, hp, hy⟩ | ⟨hp, hy⟩ := s.abortReduce.report_cases (s.tree job r) r
      · rw [hy, AbortReduceNet.wave_sendUp]
        exact ⟨_, hk.send (job.mem_trees_children hlt hp) hat.2.2.1
          (hk.inv.counted_of_replies hindex) hdone _⟩
      · rw [hy, AbortReduceNet.wave_complete]
        exact ⟨_, hk.release_root (job.eq_trees_root hlt hp) (hk.inv.counted_of_replies hindex)
          hdone _⟩
  | abortReduceDown r =>
      obtain ⟨hpc, hsent⟩ := he
      rw [show s.pc (Event.abortReduceDown (α := α) r).rank = _ from hpc] at hat
      have hk := h.abort_turn hlt hat.1 hat.2.2.2.1
      obtain ⟨p, hp, hm⟩ := TreeState.parentSent_iff.mp hsent
      simp only [Sys.next, AbortReduceNet.await_eq _ _ _ hp, AbortReduceNet.wave_recvResult]
      exact ⟨_, hk.answer (job.mem_trees_children hlt hp) hm _⟩
  | _ => exact h.abort

theorem turns_next (he : s.Enabled job e) (h : s.Turns job) : (s.next job e).Turns job :=
  ⟨coherent_next he h.coherent, barrierTurn_next he h, abortTurn_next he h⟩

theorem turns_of_run {es : List (Event α)} (hrun : job.step.Run s es t) (h : s.Turns job) :
    t.Turns job :=
  hrun.invariant (fun _ _ hI hE => turns_next hE hI) h

end Libcircle
