import Libcircle.System.TreeHistory
import Libcircle.System.Solo

/-!
# What an invocation leaves to do

In an invocation with tree termination in which no callback calls `CIRCLE_abort`, no
rank ever sees an abort (`Sys.Traced` with an empty log).  A rank leaves the main loop
only in a settled system, and then nothing is left in the queues or on its way.  So,
as soon as one rank has left the main loop, exactly the items enqueued have been
dequeued, on whatever ranks they were (`tree_processes_all`).
-/

namespace Libcircle

variable {α : Type*} {job : Job} {s t : Sys α} {e : Event α} {r x : Rank}

/-- One invocation with tree termination in which no callback has called `CIRCLE_abort`. -/
def Sys.Unaborted (job : Job) (s : Sys α) : Prop := Sys.TreeRecords job 1 (s, [])

namespace Sys.Unaborted

/-- No rank sees an abort. -/
theorem abortFlag_eq (h : s.Unaborted job) (r : Rank) : s.abortFlag r = false := by
  by_contra hf
  obtain ⟨_, hj, _⟩ := h.records.traced.flag r (Bool.eq_true_of_not_eq_false hf)
  cases hj

theorem next (h : s.Unaborted job) (ht : (job.opts 1).termTree = true) (he : s.Enabled job e)
    (hf : FirstOnly s e) (hcalls : e.aborts = false) : (s.next job e).Unaborted job := by
  have hnext : Sys.TreeRecords job 1 (s.next job e, job.log s [] e) :=
    TreeRecords.next h ht he (beginsAt_of_firstOnly hf)
  rwa [show job.log s [] e = [] by simp [Job.log, hcalls]] at hnext

theorem of_run (ht : (job.opts 1).termTree = true) {es : List (Event α)}
    (hrun : job.once.Run s es t) (hcalls : ∀ e ∈ es, e.aborts = false) (h : s.Unaborted job) :
    t.Unaborted job :=
  EventSystem.Run.restrict_invariant (S := job.once)
    (fun _ _ hI hE hC => hI.next ht hE.1 hE.2 hC) (hrun.restrict_of_forall hcalls) h

/-- A rank leaves the main loop in a settled system. -/
theorem settled (h : s.Unaborted job) (hleft : s.Left x) : s.termView.Settled job 1 :=
  h.turn.phase.resolve_left fun hS => hleft.1 (hS.main_of_pos hleft.2)

theorem not_logged (n : Nat) : ¬Logged [] n := fun ⟨_, hj, _⟩ => by cases hj

/-- Once a rank has left the main loop, no items are left, and none are in flight. -/
theorem exhausted (h : s.Unaborted job) (hleft : s.Left x) :
    (∀ r, r < job.size → s.work.queue r = []) ∧ ∀ r d k l, .items k l ∉ s.work.replies r d :=
  TreeRecords.exhausted h (h.settled hleft) Nat.one_pos (not_logged 1)

theorem checkpointed_eq (h : s.Unaborted job) : s.checkpointed = [] :=
  h.written.resolve_right fun ⟨_, _, hlog⟩ => not_logged _ hlog

end Sys.Unaborted

/-- Once a rank has left the main loop, all items are processed. -/
theorem processed_of_left (ht : (job.opts 1).termTree = true) {queue : Rank → List α}
    {input : Rank → ReduceInput} {enqueued : List α} {es : List (Event α)}
    (hstart : (enqueued : Multiset α) = ∑ r ∈ Finset.range job.size, (queue r : Multiset α))
    (hrun : job.once.Run (Sys.start queue (fun _ => false) input enqueued) es s)
    (hcalls : ∀ e ∈ es, e.aborts = false) (hleft : s.Left x) :
    (s.dequeued : Multiset α) = s.enqueued ∧ s.checkpointed = [] := by
  have hU : s.Unaborted job := Sys.Unaborted.of_run ht hrun hcalls (treeRecords_start ..)
  have hcons := conserved_of_run hrun.of_restrict (coherent_start ..) (conserved_start hstart)
  have hcheck := hU.checkpointed_eq
  exact ⟨Sys.TreeRecords.processed hU (hU.settled hleft) Nat.one_pos (Sys.Unaborted.not_logged 1)
    hcheck hcons, hcheck⟩

/-- Nothing is left to do: in one invocation with tree termination in which no callback calls
`CIRCLE_abort`, from the moment one rank has left the main loop, the items dequeued are those
enqueued, each as often as it was enqueued.  All queues are empty, no rank sees an abort, and no
checkpoint has been written. -/
theorem tree_processes_all (ht : (job.opts 1).termTree = true) {queue : Rank → List α}
    {input : Rank → ReduceInput} {enqueued : List α} {es : List (Event α)}
    (hstart : (enqueued : Multiset α) = ∑ r ∈ Finset.range job.size, (queue r : Multiset α))
    (hrun : job.once.Run (Sys.start queue (fun _ => false) input enqueued) es s)
    (hcalls : ∀ e ∈ es, e.aborts = false) (hleft : s.Left x) :
    (s.dequeued : Multiset α) = s.enqueued ∧ s.checkpointed = [] ∧
      ∀ r, (r < job.size → s.work.queue r = []) ∧ s.abortFlag r = false := by
  have hU : s.Unaborted job := Sys.Unaborted.of_run ht hrun hcalls (treeRecords_start ..)
  obtain ⟨hprocessed, hcheck⟩ := processed_of_left ht hstart hrun hcalls hleft
  exact ⟨hprocessed, hcheck, fun r => ⟨(hU.exhausted hleft).1 r, hU.abortFlag_eq r⟩⟩

theorem tree_processes_all_lastRound :
    let s := treePair.once.follow .fresh (lastRound ++ [.termUp 0])
    (s.dequeued : Multiset Nat) = s.enqueued ∧ s.work.queue 1 = [] :=
  have hrun : treePair.once.Run .fresh (lastRound ++ [.termUp 0])
      (treePair.once.follow .fresh (lastRound ++ [.termUp 0])) := .of_admits (by decide +kernel)
  have hall := tree_processes_all (x := 0) rfl rfl hrun (by decide +kernel)
    ⟨by decide +kernel, by decide +kernel⟩
  ⟨hall.1, (hall.2.2 1).1 (by decide)⟩

end Libcircle
