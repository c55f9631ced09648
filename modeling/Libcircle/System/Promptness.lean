import Libcircle.Lib.Deadline
import Libcircle.System.Dismissal
import Libcircle.System.TreeSoundness

/-!
# Tree termination is prompt

Once every rank is passive and every transfer acknowledged, no receipt clears a flag
any more.  A flag that is cleared by then makes the round fail in which its rank
reports it, which is the round under way or the next one.  So from then on at most
two rounds fail, in every run (`tree_termination_prompt`).
-/

namespace Libcircle

variable {α : Type*} {job : Job} {s t : Sys α} {e : Event α} {r : Rank} {n : ℕ}

/-- The system is settled, and no cleared flag is left for round `n`. -/
structure Sys.Closing (job : Job) (n : ℕ) (s : Sys α) : Prop where
  term : s.TreeTerm job
  settled : s.termView.Settled job 1
  clear : s.vote.Clear job.rootedTree n

theorem Sys.Closing.next (h : s.Closing job n) (ht : (job.opts 1).termTree = true)
    (he : s.Enabled job e) (hf : FirstOnly s e) : (s.next job e).Closing job n where
  term := treeTerm_next ht he hf h.term
  settled := h.settled.of_calm
    (settled_calm he (beginsAt_of_firstOnly hf) h.term.waves.once.coherent h.term.accounted
      h.settled)
  clear := by
    rcases vote_next ht he hf h.term.waves h.settled with hsame | hmove
    · exact hsame ▸ h.clear
    · exact h.clear.move h.term.waves.term hmove

/-- Tree termination is prompt: in one invocation, once every rank has started, is passive and has
its transfers acknowledged, every rank that is still in the main loop has completed at most two
rounds of the allreduce more than the root had then. -/
theorem tree_termination_prompt (ht : (job.opts 1).termTree = true) {queue : Rank → List α}
    {abortFlag : Rank → Bool} {input : Rank → ReduceInput} {enqueued : List α}
    {es fs : List (Event α)}
    (hrun : job.once.Run (Sys.start queue abortFlag input enqueued) es s)
    (hquiet : ∀ r, r < job.size → 0 < s.inv r ∧ s.work.workOutstanding r = 0 ∧
      (s.work.queue r = [] ∨ s.abortFlag r = true))
    (hlater : job.once.Run s fs t) (hr : r < job.size) (hst : t.stage r = .main) :
    (t.term.st r).rounds ≤ (s.term.st 0).rounds + 2 := by
  have hT := treeTerm_of_run ht hrun (treeTerm_start ..)
  have hclosing : s.Closing job ((s.term.st 0).rounds + 2) := {
    term := hT
    settled := fun x hx => ⟨(hquiet x hx).1, (hquiet x hx).2.1, fun _ => (hquiet x hx).2.2⟩
    clear := Vote.clear_initial hT.waves.term }
  have ht' := hlater.restrict_invariant (fun _ _ hI hE hC => hI.next ht hE hC) hclosing
  exact ht'.clear.done_le hr (decide_eq_false fun hleft => hleft.1 hst)

/-- After 35 events all items are processed, and no round is complete yet. -/
theorem tree_termination_prompt_lastRound :
    let s := treePair.once.follow .fresh (lastRound.take 35)
    ((treePair.once.follow s (lastRound.drop 35)).term.st 0).rounds ≤ (s.term.st 0).rounds + 2 :=
  have hrun : treePair.once.Run .fresh (lastRound.take 35)
      (treePair.once.follow .fresh (lastRound.take 35)) := .of_admits (by decide +kernel)
  have hlater : treePair.once.Run (treePair.once.follow .fresh (lastRound.take 35))
      (lastRound.drop 35)
      (treePair.once.follow (treePair.once.follow .fresh (lastRound.take 35))
        (lastRound.drop 35)) := .of_admits (by decide +kernel)
  tree_termination_prompt rfl hrun (by decide +kernel) hlater (by decide) (by decide +kernel)

end Libcircle
