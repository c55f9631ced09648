import Libcircle.Lib.Verdict
import Libcircle.System.Solo
import Libcircle.System.TreeSoundness

/-!
# Leaving the main loop with tree termination

The termination allreduce is a vote that is repeated until it is unanimous
(`Sys.vote`).  Every event is a move of the vote, or leaves it alone but for the
flags.  So the ranks that have left the main loop are those that had the last round
(`dismissal_next`).  In a settled system an event leaves the flags alone, too, so no
step takes the end of the main loops further away (`vote_next`).
-/

namespace Libcircle

variable {α : Type*} {job : Job} {s t : Sys α} {e : Event α} {r x : Rank}

/-! ## The vote -/

instance (s : Sys α) (r : Rank) : Decidable (s.Left r) := inferInstanceAs (Decidable (_ ∧ _))

/-- The termination allreduce. -/
def Sys.vote (s : Sys α) : Vote Rank where
  wave := s.term.wave
  flag r := (s.term.st r).termFlag
  left r := decide (s.Left r)

/-- A rank leaves the main loop with a positive answer, and only so. -/
theorem left_next_iff (ht : (job.opts 1).termTree = true) (he : s.Enabled job e)
    (hf : FirstOnly s e) (hO : s.Once job) :
    (s.next job e).Left x ↔ s.Left x ∨ (x = e.rank ∧ s.termAnswer job e = some true) := by
  by_cases hx : x = e.rank
  · subst hx
    have hok := hO.coherent.ok e.rank
    have hat := hok.position
    have hpos : s.stage e.rank ≠ .outside → 0 < s.inv e.rank := hok.tidy.inv_pos
    rw [and_iff_right rfl]
    cases e with
    | begin r next ops =>
        have hinv : s.inv r = 0 := hf
        simp [Sys.Left, Event.rank, Sys.next, Sys.termAnswer, hinv]
    | termUp r =>
        rw [show s.pc (Event.termUp (α := α) r).rank = _ from he] at hat
        have hst : s.stage r = .main := hat.1
        have hinv : 0 < s.inv r := hpos (by simp [Event.rank, hst])
        simp only [Sys.Left, Event.rank, Sys.next, Sys.termAnswer, Function.update_self, hst]
        cases (s.term.report (s.tree job r) r).2 with
        | none => simp [stageAfterTerm]
        | some flag => cases flag <;> simp [stageAfterTerm, hinv]
    | termDown r hit =>
        rw [show s.pc (Event.termDown (α := α) r hit).rank = _ from he.1] at hat
        have hst : s.stage r = .main := hat.1
        have hinv : 0 < s.inv r := hpos (by simp [Event.rank, hst])
        simp only [Sys.Left, Event.rank, Sys.next, Sys.termAnswer, Function.update_self, hst]
        cases (s.term.await (s.tree job r) r hit).2 with
        | none => simp [stageAfterTerm]
        | some flag => cases flag <;> simp [stageAfterTerm, hinv]
    | token r hit =>
        rw [show s.pc (Event.token (α := α) r hit).rank = _ from he.1] at hat
        have hinv : s.inv r = 1 := hO.inv_eq (by simp [show s.stage r = .main from hat.1])
        have htree : (job.opts (s.inv r)).termTree = false := hat.2.2.1
        rw [hinv, ht] at htree
        cases htree
    | barrierUp r =>
        rw [show s.pc (Event.barrierUp (α := α) r).rank = _ from he] at hat
        have hst : s.stage r = .cleanup := hat.1
        simp only [Sys.Left, Event.rank, Sys.next, Sys.termAnswer, Function.update_self, hst]
        split <;> simp
    | barrierDown r hit =>
        rw [show s.pc (Event.barrierDown (α := α) r hit).rank = _ from he.1] at hat
        have hst : s.stage r = .cleanup := hat.1
        simp only [Sys.Left, Event.rank, Sys.next, Sys.termAnswer, Function.update_self, hst]
        split <;> simp
    | finish r =>
        rw [show s.pc (Event.finish (α := α) r).rank = _ from he] at hat
        have hst : s.stage r = .after := hat.1
        simp [Sys.Left, Event.rank, Sys.next, Sys.termAnswer, hst]
    | _ => exact ⟨.inl, fun h => h.resolve_right (by simp [Sys.termAnswer])⟩
  · have hloc : (s.next job e).loc x = s.loc x := loc_next_of_ne hx
    rw [Sys.Left, show (s.next job e).stage x = s.stage x from congrArg Loc.stage hloc,
      show (s.next job e).inv x = s.inv x from congrArg Loc.inv hloc]
    exact ⟨.inl, fun h => h.resolve_right fun h' => hx h'.1⟩

theorem left_vote (ht : (job.opts 1).termTree = true) (he : s.Enabled job e)
    (hf : FirstOnly s e) (hO : s.Once job) (hans : s.termAnswer job e ≠ some true) :
    (s.next job e).vote.left = s.vote.left := by
  funext x
  refine decide_eq_decide.mpr ((left_next_iff ht he hf hO).trans ?_)
  exact ⟨fun h => h.resolve_right fun h' => hans h'.2, .inl⟩

/-- A rank that gets an answer leaves exactly if it is positive. -/
theorem left_vote_answer (ht : (job.opts 1).termTree = true) (he : s.Enabled job e)
    (hO : s.Once job) (hf : FirstOnly s e) {m : Bool}
    (hans : s.termAnswer job e = some m) (hst : s.stage e.rank = .main) :
    (s.next job e).vote.left = Function.update s.vote.left e.rank m := by
  funext x
  have hiff := left_next_iff (x := x) ht he hf hO
  rw [hans] at hiff
  by_cases hx : x = e.rank
  · subst hx
    have hself : (s.next job e).Left e.rank ↔ m = true := by
      rw [hiff]
      simp [Sys.Left, hst]
    rw [Function.update_self]
    simp [Sys.vote, hself]
  · rw [Function.update_of_ne hx]
    exact decide_eq_decide.mpr (hiff.trans ⟨fun h => h.resolve_right fun h' => hx h'.1, .inl⟩)

/-! ## Events -/

/-- The steps of the termination allreduce that receive or report. -/
def Event.Votes : Event α → Prop
  | .termReply .. | .termUp .. | .termDown .. => True
  | _ => False

/-- The flag of a child arrives. -/
theorem vote_termReply {src : Rank} (he : s.Enabled job (.termReply r src)) (hW : s.Waves job)
    (ht : (job.opts 1).termTree = true) :
    Vote.Move job.rootedTree s.vote (s.next job (.termReply r src)).vote := by
  have hleft := left_vote ht he trivial hW.once (by simp [Sys.termAnswer])
  obtain ⟨hpc, hpend, hm⟩ := he
  rw [hW.once.tree_eq ((hW.once.coherent.ok r).stage_ne (by simp [hpc]))] at hpend
  have hc := hW.term.child_of_pending hpend hm
  obtain ⟨m, hnet, _⟩ := hW.term.sent_of_report hc hm
  have hnet : s.term.net src r = [m] := hnet
  have hvote : (s.next job (.termReply r src)).vote =
      { s.vote with
        wave := s.vote.wave.recv r src
        flag := Function.update s.vote.flag r (s.vote.flag r && m) } := by
    refine Vote.ext (TermNet.wave_recvFlag ..) ?_ hleft
    simp only [Sys.vote, Sys.next, hnet, List.headD_cons, TermNet.recvFlag]
    exact update_proj Term.termFlag _ _ _
  rw [hvote]
  exact .recv r src m hc hnet

/-- The report to the parent, or the answer of the root. -/
theorem vote_termUp (he : s.Enabled job (.termUp r)) (hW : s.Waves job)
    (ht : (job.opts 1).termTree = true) :
    (¬s.term.Ready (job.tree 1 r) r ∧ (s.next job (.termUp r)).vote = s.vote) ∨
      Vote.Move job.rootedTree s.vote (s.next job (.termUp r)).vote := by
  have hO := hW.once
  have hpc : s.pc r = .termUp := he
  have hlt : r < job.size := (hO.coherent.ok r).lt_size (by simp [hpc])
  have htree := hO.tree_eq ((hO.coherent.ok r).stage_ne (by simp [hpc]))
  have hat := (hO.coherent.ok r).position
  rw [hpc] at hat
  have hst : s.stage r = .main := hat.1
  obtain ⟨hready, hy⟩ | ⟨p, hready, hp, hy⟩ | ⟨hready, hp, hy⟩ :=
    s.term.report_cases (job.tree 1 r) r
  · have hleft := left_vote ht he trivial hO (by simp [Sys.termAnswer, htree, hy])
    refine .inl ⟨hready, Vote.ext ?_ ?_ hleft⟩ <;> simp only [Sys.vote, Sys.next, htree, hy]
  · right
    have hleft := left_vote ht he trivial hO (by simp [Sys.termAnswer, htree, hy])
    have hvote : (s.next job (.termUp r)).vote =
        { s.vote with
          wave := s.vote.wave.send r p (s.vote.flag r)
          flag := Function.update s.vote.flag r true } := by
      refine Vote.ext ?_ ?_ hleft
      · simp only [Sys.vote, Sys.next, htree, hy, TermNet.wave_sendUp]
      · simp only [Sys.vote, Sys.next, htree, hy, TermNet.sendUp]
        exact update_proj Term.termFlag _ _ _
    rw [hvote]
    exact .send p r (job.mem_children hlt hp) hready.1 (hW.term.counted_of_replies hready.2)
  · right
    obtain rfl := job.eq_root hlt hp
    have hleft := left_vote_answer ht he hO trivial (m := s.vote.flag job.rootedTree.root)
      (by simp [Sys.termAnswer, htree, hy, Sys.vote]) hst
    have hvote : (s.next job (.termUp job.rootedTree.root)).vote =
        { wave := s.vote.wave.release job.rootedTree.root
            (job.rootedTree.children job.rootedTree.root) (s.vote.flag job.rootedTree.root)
          flag := Function.update s.vote.flag job.rootedTree.root true
          left := Function.update s.vote.left job.rootedTree.root
            (s.vote.flag job.rootedTree.root) } := by
      refine Vote.ext ?_ ?_ hleft
      · simp only [Sys.vote, Sys.next, htree, hy, TermNet.wave_completeRoot]
        rfl
      · simp only [Sys.vote, Sys.next, htree, hy, TermNet.completeRoot, TermNet.complete,
          TermNet.set, Function.update_idem, Function.update_self]
        exact update_proj Term.termFlag _ _ _
    rw [hvote]
    refine .release ?_ (hW.term.counted_of_replies hready.2)
    simp [Sys.vote, Sys.Left, hst]

/-- The answer of the parent, or none. -/
theorem vote_termDown {hit : Bool} (he : s.Enabled job (.termDown r hit)) (hW : s.Waves job)
    (ht : (job.opts 1).termTree = true) :
    (hit = false ∧ (s.next job (.termDown r hit)).vote = s.vote) ∨
      Vote.Move job.rootedTree s.vote (s.next job (.termDown r hit)).vote := by
  have hO := hW.once
  have hpc : s.pc r = .termDown := he.1
  have hlt : r < job.size := (hO.coherent.ok r).lt_size (by simp [hpc])
  have htree := hO.tree_eq ((hO.coherent.ok r).stage_ne (by simp [hpc]))
  have hat := (hO.coherent.ok r).position
  rw [hpc] at hat
  have hst : s.stage r = .main := hat.1
  have hhit := he.2
  rw [htree] at hhit
  obtain hy | ⟨p, hp, rfl, hy⟩ := s.term.await_cases (job.tree 1 r) r hit
  · have hleft := left_vote ht he trivial hO (by simp [Sys.termAnswer, htree, hy])
    refine .inl ⟨?_, Vote.ext ?_ ?_ hleft⟩
    · cases hit with
      | false => rfl
      | true =>
          obtain ⟨p, hp, _⟩ := TreeState.parentSent_iff.mp (hhit rfl).2
          simp [TermNet.await, hp] at hy
    · simp only [Sys.vote, Sys.next, htree, hy]
    · simp only [Sys.vote, Sys.next, htree, hy]
  · right
    obtain ⟨p', hp', hm⟩ := TreeState.parentSent_iff.mp (hhit rfl).2
    obtain rfl : p = p' := Option.some.inj (hp.symm.trans hp')
    have hc := job.mem_children hlt hp
    obtain ⟨m, hnet, _⟩ := hW.term.answered_of_answer hc hm
    have hnet : s.term.net p r = [m] := hnet
    have hleft := left_vote_answer ht he hO trivial (m := m)
      (by simp [Sys.termAnswer, htree, hy, hnet]) hst
    have hvote : (s.next job (.termDown r true)).vote =
        { s.vote with
          wave := s.vote.wave.answer p r (job.rootedTree.children r) m
          left := Function.update s.vote.left r m } := by
      refine Vote.ext ?_ ?_ hleft
      · simp only [Sys.vote, Sys.next, htree, hy, TermNet.wave_recvResult, hnet, List.headD_cons]
        rfl
      · simp only [Sys.vote, Sys.next, htree, hy, TermNet.recvResult, TermNet.complete]
        exact update_proj_same Term.termFlag _ _ rfl
    rw [hvote]
    exact .answer p r m hc (by simp [Sys.vote, Sys.Left, hst]) hnet

/-- Each of these steps is a move, or comes too early. -/
theorem vote_votes (he : s.Enabled job e) (hW : s.Waves job) (ht : (job.opts 1).termTree = true)
    (hv : e.Votes) :
    (s.next job e).vote = s.vote ∨ Vote.Move job.rootedTree s.vote (s.next job e).vote := by
  cases e with
  | termReply r src => exact .inr (vote_termReply he hW ht)
  | termUp r => exact (vote_termUp he hW ht).imp_left And.right
  | termDown r hit => exact (vote_termDown he hW ht).imp_left And.right
  | _ => exact hv.elim

/-- No other step moves the vote. -/
theorem vote_other (he : s.Enabled job e) (hf : FirstOnly s e) (hO : s.Once job)
    (ht : (job.opts 1).termTree = true) (hv : ¬e.Votes) :
    (s.next job e).vote.wave = s.vote.wave ∧ (s.next job e).vote.left = s.vote.left := by
  constructor
  · cases e with
    | begin r next ops =>
        have hst := ((hO.coherent.ok r).requested_of_idle he.1).1
        exact TermNet.wave_init s.term
          ((hO.coherent.ok r).tidy.term_reset (.inl (by simp [Sys.loc, hst])))
    | workreceipt r src => exact TermNet.wave_clearFlag s.term
    | termReply | termUp | termDown => exact absurd trivial hv
    | _ => rfl
  · refine left_vote ht he hf hO fun hans => ?_
    cases e with
    | termUp | termDown => exact hv trivial
    | _ => cases hans

/-! ## The ranks that have left -/

theorem dismissal_start (queue : Rank → List α) (abortFlag : Rank → Bool)
    (input : Rank → ReduceInput) (enqueued : List α) :
    (Sys.start queue abortFlag input enqueued).vote.Dismissal job.rootedTree :=
  .inl ⟨fun _ _ => by simp [Sys.vote, Sys.Left, Sys.start],
    fun _ _ _ => by simp [Sys.vote, TermNet.wave, Sys.start]⟩

theorem dismissal_next (ht : (job.opts 1).termTree = true) (he : s.Enabled job e)
    (hf : FirstOnly s e) (hW : s.Waves job) (h : s.vote.Dismissal job.rootedTree) :
    (s.next job e).vote.Dismissal job.rootedTree := by
  by_cases hv : e.Votes
  · rcases vote_votes he hW ht hv with hsame | hmove
    · rwa [hsame]
    · exact h.move hW.term hmove
  · obtain ⟨hwave, hleft⟩ := vote_other he hf hW.once ht hv
    refine h.of_same (fun x _ => by rw [hleft]) (by rw [hwave]) fun p c _ m hm => ?_
    rwa [hwave] at hm

/-! ## The vote of a settled system -/

/-- In a settled system no step clears a flag. -/
theorem vote_next (ht : (job.opts 1).termTree = true) (he : s.Enabled job e)
    (hf : FirstOnly s e) (hW : s.Waves job) (h : s.termView.Settled job 1) :
    (s.next job e).vote = s.vote ∨ Vote.Move job.rootedTree s.vote (s.next job e).vote := by
  by_cases hv : e.Votes
  · exact vote_votes he hW ht hv
  · left
    obtain ⟨hwave, hleft⟩ := vote_other he hf hW.once ht hv
    refine Vote.ext hwave ?_ hleft
    obtain ⟨hinv, hout, _⟩ := h _ ((hW.once.coherent.ok _).rank_lt he)
    cases e with
    | begin r next ops => exact absurd hf (Nat.ne_of_gt hinv)
    | workreceipt r src => exact absurd hout (Nat.ne_of_gt he.2.1)
    | termReply | termUp | termDown => exact absurd trivial hv
    | _ => rfl

end Libcircle
