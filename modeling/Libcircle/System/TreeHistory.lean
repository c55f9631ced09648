import Libcircle.System.AbortHistory
import Libcircle.System.TreeTurns

/-!
# What an invocation with tree termination leaves to do

In a sequence of invocations with tree termination, a rank leaves the main loop of an
invocation only when it is settled.  If neither this invocation nor an earlier one is
in the log, no rank in it sees an abort, so a settled invocation has no items left,
and none of its ranks writes a checkpoint (`Sys.TreeRecords`).

So the `k`-th invocation ends as its own calls of `CIRCLE_abort` demand, with its
flags set exactly if there are any and with its items processed if there are none,
exactly if it has such calls or no earlier invocation has (`aborted_iff_called`).
-/

namespace Libcircle

variable {α : Type*} {job : Job} {s t : Sys α} {e : Event α} {r x : Rank} {l l' : List Nat}
  {k : Nat}

/-! ## Stages and queues -/

/-- A rank in the main loop stays there or enters the cleanup loop. -/
theorem looping_of_main (he : s.Enabled job e) (hok : s.Ok job e.rank)
    (hst : s.stage e.rank = .main) :
    (s.next job e).stage e.rank = .main ∨ (s.next job e).stage e.rank = .cleanup := by
  have hat := hok.position
  have hloc : (s.loc e.rank).stage = .main := hst
  cases e with
  | begin r next ops => exact .inl (Function.update_self ..)
  | termUp r =>
      cases h : (s.term.report (s.tree job r) r).2 with
      | none => simp [Sys.next, Event.rank, h, stageAfterTerm, show s.stage r = .main from hst]
      | some flag =>
          cases flag <;>
          simp [Sys.next, Event.rank, h, stageAfterTerm, show s.stage r = .main from hst]
  | termDown r hit =>
      cases h : (s.term.await (s.tree job r) r hit).2 with
      | none => simp [Sys.next, Event.rank, h, stageAfterTerm, show s.stage r = .main from hst]
      | some flag =>
          cases flag <;>
          simp [Sys.next, Event.rank, h, stageAfterTerm, show s.stage r = .main from hst]
  | token r hit =>
      simp only [Sys.next, Event.rank, Function.update_self]
      generalize s.token.checkForTerm job.size (s.abortFlag r) r _ = y
      split
      · exact .inr rfl
      · exact .inl hst
  | barrierUp r =>
      rw [show s.pc (Event.barrierUp (α := α) r).rank = _ from he] at hat
      cases hat.1.symm.trans hloc
  | barrierDown r hit =>
      rw [show s.pc (Event.barrierDown (α := α) r hit).rank = _ from he.1] at hat
      cases hat.1.symm.trans hloc
  | finish r =>
      rw [show s.pc (Event.finish (α := α) r).rank = _ from he] at hat
      cases hat.1.symm.trans hloc
  | _ => exact .inl hst

/-- Outside its loops a rank only empties its queue. -/
theorem queue_next_of_not_looping (he : s.Enabled job e) (hok : s.Ok job e.rank)
    (hst : ¬(s.loc x).Looping) (hne : ∀ next ops, e ≠ .begin x next ops) :
    (s.next job e).work.queue x = s.work.queue x ∨ (s.next job e).work.queue x = [] := by
  have hat := hok.position
  by_cases hx : x = e.rank
  · subst hx
    cases e with
    | begin r next ops => exact absurd rfl (hne next ops)
    | workreqDone r rand =>
        left
        simp only [Sys.next, Event.rank]
        split <;> rfl
    | sendWork r count =>
        rw [show s.pc (Event.sendWork (α := α) r count).rank = _ from he.1] at hat
        exact absurd (.inl hat.1) hst
    | requestReply r sent =>
        rw [show s.pc (Event.requestReply (α := α) r sent).rank = _ from he.1] at hat
        exact absurd hat.1 hst
    | process r ops =>
        rw [show s.pc (Event.process r ops).rank = _ from he.1] at hat
        exact absurd (.inl hat.1) hst
    | finish r =>
        simp only [Sys.next, Event.rank]
        split
        · exact .inr (Function.update_self ..)
        · exact .inl rfl
    | _ => exact .inl rfl
  · exact .inl (congrArg Loc.queue (loc_next_of_ne hx : (s.next job e).loc x = s.loc x))

/-! ## The records -/

/-- The records of invocations with tree termination, of which the `k`-th is the last begun. -/
structure Sys.TreeRecords (job : Job) (k : Nat) (y : Sys α × List Nat) : Prop where
  records : Sys.Records job y
  turn : y.1.TreeTurn job k
  /-- A settled invocation that no abort can have reached has no items left. -/
  spent : ∀ r, r < job.size → y.1.inv r < k ∨ y.1.termView.Settled job k → 0 < y.1.inv r →
    ¬Logged y.2 (y.1.inv r) → y.1.work.queue r = []
  /-- Every checkpoint is younger than an entry of the log. -/
  written : y.1.checkpointed = [] ∨ ∃ x, x < job.size ∧ Logged y.2 (y.1.reductions x)

theorem treeRecords_start (queue : Rank → List α) (input : Rank → ReduceInput)
    (enqueued : List α) :
    Sys.TreeRecords job 1 (Sys.start queue (fun _ => false) input enqueued, []) where
  records := records_start ..
  turn := treeTurn_start ..
  spent _ _ _ hpos _ := absurd hpos (Nat.lt_irrefl 0)
  written := .inl rfl

/-- A rank in the loops of a settled invocation that no abort can have reached has no items. -/
theorem queue_nil_of_settled (hR : Sys.Records job (s, l)) (hS : s.termView.Settled job k)
    (hr : r < job.size) (hst : s.stage r = .main ∨ s.stage r = .cleanup)
    (hnot : ¬Logged l (s.inv r)) : s.work.queue r = [] :=
  ((hS r hr).2.2 hst).resolve_right fun hf => hnot (hR.traced.flag r hf)

/-- The step that settles an invocation finds all ranks in the loops. -/
theorem looping_of_settling (he : s.Enabled job e) (hcoh : s.Coherent job)
    (hS : s.termView.Searching job k) (hS' : (s.next job e).termView.Settled job k)
    (hr : r < job.size) :
    (s.next job e).stage r = .main ∨ (s.next job e).stage r = .cleanup := by
  have hinv : k ≤ (s.next job e).inv r := (hS' r hr).1
  by_cases hre : r = e.rank
  · subst hre
    by_cases hst : s.stage e.rank = .main
    · exact looping_of_main he (hcoh.ok _) hst
    · -- late before the step, the rank can only begin the invocation
      have hlt : s.inv e.rank < k := hS.inv_lt hst
      cases e with
      | begin r next ops => exact .inl (Function.update_self ..)
      | _ => exact absurd hlt (Nat.not_lt.mpr hinv)
  · have hloc : (s.next job e).loc r = s.loc r := loc_next_of_ne hre
    have hinv' : (s.next job e).inv r = s.inv r := congrArg Loc.inv hloc
    refine .inl ((congrArg Loc.stage hloc).trans ?_)
    by_contra hst
    exact absurd (hS.inv_lt hst) (Nat.not_lt.mpr (hinv.trans hinv'.le))

namespace Sys.TreeRecords

/-- Only a rank that sees an abort writes a checkpoint. -/
theorem written_next (h : Sys.TreeRecords job k (s, l)) (he : s.Enabled job e) :
    (s.next job e).checkpointed = [] ∨
      ∃ x, x < job.size ∧ Logged (job.log s l e) ((s.next job e).reductions x) := by
  have hmono : ∀ {x n}, Logged l n → n ≤ s.reductions x →
      Logged (job.log s l e) ((s.next job e).reductions x) :=
    fun hlog hle => (hlog.mono (hle.trans (reductions_le_next _))).log
  rcases h.written with hnil | ⟨x, hx, hlog⟩
  · cases hflag : s.abortFlag e.rank with
    | false => exact .inl ((checkpointed_next hflag).trans hnil)
    | true =>
        cases e with
        | finish r =>
            have hok := h.records.turns.coherent.ok r
            have hat := hok.position
            rw [show s.pc r = _ from he] at hat
            have hred : s.reductions r = s.inv r := hat.2.2.2
            exact .inr ⟨r, hok.rank_lt (e := .finish r) he,
              hmono (h.records.traced.flag r hflag) hred.ge⟩
        | _ => exact .inl hnil
  · exact .inr ⟨x, hx, hmono hlog (Nat.le_refl _)⟩

/-- A step that begins no later invocation. -/
theorem next (h : Sys.TreeRecords job k (s, l)) (ht : (job.opts k).termTree = true)
    (he : s.Enabled job e) (hb : BeginsAt k s e) :
    Sys.TreeRecords job k (job.logged.next (s, l) e) := by
  have hR : Sys.Records job (s.next job e, job.log s l e) := records_next he h.records
  have hT : (s.next job e).TreeTurn job k := treeTurn_next ht he hb h.turn
  have hcoh := h.records.turns.coherent
  refine ⟨hR, hT, fun r hr hlate hpos hnot => ?_, h.written_next he⟩
  have hnot' : ¬Logged l (s.inv r) := fun hlog => hnot (hlog.mono (inv_le_next r)).log
  rcases h.turn.phase with hS | hS
  · rcases hlate with hlate | hS'
    · -- a late rank only empties its queue
      have hlt : s.inv r < k := (inv_le_next r).trans_lt hlate
      have hst : ¬(s.loc r).Looping := by
        rintro (hst | hst)
        · exact Nat.ne_of_lt hlt (h.turn.turn.main_eq r hst)
        · exact hS.stage_ne_cleanup r hst
      have hne : ∀ next ops, e ≠ .begin r next ops := by
        rintro next ops rfl
        exact Nat.ne_of_lt hlate ((Function.update_self ..).trans hb)
      have hinv : (s.next job e).inv r = s.inv r := by
        cases e with
        | begin r' next ops =>
            refine Function.update_of_ne (fun hr' => ?_) _ _
            exact hne next ops (hr' ▸ rfl)
        | _ => rfl
      have hq := h.spent r hr (.inl hlt) (hinv ▸ hpos) hnot'
      rcases queue_next_of_not_looping he (hcoh.ok _) hst hne with hq' | hq'
      · exact hq'.trans hq
      · exact hq'
    · exact queue_nil_of_settled hR hS' hr (looping_of_settling he hcoh hS hS' hr) hnot
  · have hinv : (s.next job e).inv r = s.inv r :=
      Nat.le_antisymm ((hT.inv_le r).trans (hS r hr).1) (inv_le_next r)
    have hq := h.spent r hr (.inr hS) (hinv ▸ hpos) hnot'
    rcases (settled_calm he hb hcoh h.turn.turn.accounted hS).queue_cases r with hq' | hq'
    · exact hq'.trans hq
    · exact hq'

/-- The first rank that begins the next invocation. -/
theorem advance (h : Sys.TreeRecords job k (s, l)) {next : Option Rank} {ops : List (WorkOp α)}
    (he : s.Enabled job (.begin r next ops)) (hk : s.inv r = k) :
    Sys.TreeRecords job (k + 1) (job.logged.next (s, l) (.begin r next ops)) := by
  have hR : Sys.Records job (s.next job (.begin r next ops), job.log s l (.begin r next ops)) :=
    records_next he h.records
  have hT : (s.next job (.begin r next ops)).TreeTurn job (k + 1) :=
    treeTurn_advance he hk h.records.turns h.turn
  have hS := h.turn.settled_of_idle he.1 hk
  refine ⟨hR, hT, fun x hx hlate hpos hnot => ?_, h.written_next he⟩
  by_cases hxr : x = r
  · subst hxr
    have hinv : (s.next job (.begin x next ops)).inv x = k + 1 :=
      (Function.update_self ..).trans (congrArg (· + 1) hk)
    have hS' := hlate.resolve_left fun hlt => Nat.ne_of_lt hlt hinv
    exact queue_nil_of_settled hR hS' hx (.inl (Function.update_self ..)) hnot
  · have hloc : (s.next job (.begin r next ops)).loc x = s.loc x := loc_next_of_ne hxr
    have hinv : (s.next job (.begin r next ops)).inv x = s.inv x := congrArg Loc.inv hloc
    refine (congrArg Loc.queue hloc).trans (h.spent x hx (.inr hS) (hinv ▸ hpos) fun hlog => ?_)
    exact hnot (hinv ▸ hlog.log)

end Sys.TreeRecords

theorem treeRecords_of_run (ht : ∀ k, (job.opts k).termTree = true)
    {y z : Sys α × List Nat} {es : List (Event α)} (hrun : job.logged.Run y es z)
    (h : ∃ k, Sys.TreeRecords job k y) : ∃ k, Sys.TreeRecords job k z := by
  refine hrun.invariant (I := fun z => ∃ k, Sys.TreeRecords job k z) (fun y e ⟨k, hk⟩ he => ?_) h
  obtain ⟨s, l⟩ := y
  have he : s.Enabled job e := he
  cases e with
  | begin r next ops =>
      have hr := (hk.records.turns.coherent.ok r).rank_lt he
      by_cases hb : s.inv r + 1 = k
      · exact ⟨k, hk.next (ht k) he hb⟩
      · have hle : s.inv r ≤ k := hk.turn.inv_le r
        have hbehind : k ≤ s.inv r + 1 := hk.turn.behind r hr
        exact ⟨k + 1, hk.advance he (by omega)⟩
  | _ => exact ⟨k, hk.next (ht k) he trivial⟩

/-! ## The end of an invocation -/

namespace Sys.TreeRecords

variable (h : Sys.TreeRecords job k (s, l))
include h

/-- An invocation that no abort can have reached leaves no items in the queues or in flight. -/
theorem exhausted (hS : s.termView.Settled job k) (hk : 0 < k) (hnot : ¬Logged l k) :
    (∀ x, x < job.size → s.work.queue x = []) ∧ ∀ a b n m, .items n m ∉ s.work.replies a b := by
  have hinv : ∀ x, x < job.size → s.inv x = k := fun x hx =>
    Nat.le_antisymm (h.turn.inv_le x) (hS x hx).1
  refine ⟨fun x hx => h.spent x hx (.inr hS) ?_ ?_, fun a b => ?_⟩
  · exact (hinv x hx).symm ▸ hk
  · exact (hinv x hx).symm ▸ hnot
  · exact (h.turn.turn.accounted.none_in_flight h.records.turns.coherent.matched hS a b).1

/-- As long as no rank has completed an abort reduction after an entry of the log, no checkpoint
has been written. -/
theorem checkpointed_eq {n : Nat} (hle : ∀ x, x < job.size → s.reductions x ≤ n)
    (hnot : ¬Logged l n) : s.checkpointed = [] :=
  h.written.resolve_right fun ⟨x, hx, hlog⟩ => hnot (hlog.mono (hle x hx))

/-- Items that are neither in the queues nor in flight nor in a checkpoint are processed. -/
theorem processed (hS : s.termView.Settled job k) (hk : 0 < k) (hnot : ¬Logged l k)
    (hcheck : s.checkpointed = []) (hcons : s.Conserved job) :
    (s.dequeued : Multiset α) = s.enqueued := by
  obtain ⟨hqueue, hnone⟩ := h.exhausted hS hk hnot
  rw [Sys.Conserved, hcheck, WorkNet.held_eq_zero hqueue, WorkNet.inFlight_eq_zero hnone] at hcons
  simpa using hcons.symm

end Sys.TreeRecords

/-- A rank that has returned from `CIRCLE_work_loop` has completed as many abort reductions as
any other. -/
theorem Sys.Turns.reductions_le_of_returned (h : s.Turns job) (hpc : s.pc r = .returned)
    (hx : x < job.size) : s.reductions x ≤ s.inv r := by
  have hok := h.coherent.ok r
  have hat := hok.position
  rw [hpc] at hat
  have hred : s.reductions r = s.inv r := hat.2.2.2
  obtain ⟨j, hj⟩ := h.abort
  by_contra hlt
  have hup := hj.up_of_done_lt hx (hok.rank_lt (e := .finish r) hpc)
    (show s.reductions r < s.reductions x by omega)
  have hw : (s.abortReduce.st r).waiting = false := hat.2.2.1.1
  exact absurd (hw.symm.trans hup) (by decide)

/-- The invocation that `r` returns from has processed its items, as far as no rank has begun
the next one, and writes no checkpoint. -/
def Sys.Fulfilled (job : Job) (s : Sys α) (r : Rank) : Prop :=
  (s.next job (.finish r)).checkpointed = [] ∧ s.work.queue r = [] ∧
    ((∀ x, x < job.size → s.inv x ≤ s.inv r) →
      (s.dequeued : Multiset α) = s.enqueued ∧ ∀ x, x < job.size → s.work.queue x = [])

theorem Sys.TreeRecords.fulfilled (h : Sys.TreeRecords job k (s, l)) (hpc : s.pc r = .returned)
    (hnot : ¬Logged l (s.inv r)) (hcons : s.Conserved job) : s.Fulfilled job r := by
  have hok := h.records.turns.coherent.ok r
  have hr : r < job.size := hok.rank_lt (e := .finish r) hpc
  have hat := hok.position
  rw [hpc] at hat
  have hst : s.stage r = .after := hat.1
  have hpos : 0 < s.inv r := hok.tidy.inv_pos (by simp [Sys.loc, hst])
  have hS : s.inv r = k → s.termView.Settled job k := fun hk =>
    h.turn.phase.resolve_left fun hS =>
      Nat.ne_of_lt (hS.inv_lt (r := r) (by simp [Sys.termView, hst])) hk
  have hlate : s.inv r < k ∨ s.termView.Settled job k :=
    (Nat.lt_or_eq_of_le (h.turn.inv_le r)).imp_right hS
  have hcheck := h.checkpointed_eq
    (fun x hx => h.records.turns.reductions_le_of_returned hpc hx) hnot
  have hflag : s.abortFlag r = false :=
    Bool.eq_false_of_not_eq_true fun hf => hnot (h.records.traced.flag r hf)
  refine ⟨(checkpointed_next (e := .finish r) hflag).trans hcheck,
    h.spent r hr hlate hpos hnot, fun hall => ?_⟩
  have hk : s.inv r = k := by
    have hle : s.inv r ≤ k := h.turn.inv_le r
    rcases h.turn.begun with h1 | ⟨x, hx, hxk⟩
    · omega
    · exact Nat.le_antisymm hle (hxk ▸ hall x hx)
  exact ⟨h.processed (hS hk) (hk ▸ hpos) (hk ▸ hnot) hcheck hcons,
    (h.exhausted (hS hk) (hk ▸ hpos) (hk ▸ hnot)).1⟩

/-- The `k`-th invocation of a rank ends as its own calls of `CIRCLE_abort` demand, exactly if it
has such calls or no invocation before it has.  It ends so if the abort flag says whether some rank
called `CIRCLE_abort` in the `k`-th invocation, and if none did, all items are processed and no
checkpoint is written. -/
theorem aborted_iff_called (htree : ∀ k, (job.opts k).termTree = true)
    {queue : Rank → List α} {input : Rank → ReduceInput} {enqueued : List α}
    (hstart : (enqueued : Multiset α) = ∑ r ∈ Finset.range job.size, (queue r : Multiset α))
    {es fs : List (Event α)} {y z : Sys α × List Nat}
    (hrun : job.logged.Run (Sys.start queue (fun _ => false) input enqueued, []) es y)
    (hret : y.1.Enabled job (.finish r)) (hrun' : job.logged.Run y fs z) :
    ((y.1.abortFlag r = true ↔ y.1.inv r ∈ z.2) ∧
        (y.1.inv r ∉ z.2 → y.1.Fulfilled job r)) ↔
      (y.1.inv r ∈ z.2 ∨ ∀ j ∈ z.2, y.1.inv r ≤ j) := by
  obtain ⟨k, hk⟩ := treeRecords_of_run htree hrun ⟨1, treeRecords_start ..⟩
  have hcons : y.1.Conserved job :=
    conserved_of_run (Job.step_of_logged hrun) (coherent_start ..) (conserved_start hstart)
  obtain ⟨s, l⟩ := y
  obtain ⟨t, l'⟩ := z
  have hiff : s.abortFlag r = true ↔ Logged l' (s.inv r) :=
    abortFlag_iff_logged hk.records hret hrun'
  change ((s.abortFlag r = true ↔ s.inv r ∈ l') ∧ (s.inv r ∉ l' → s.Fulfilled job r)) ↔
    (s.inv r ∈ l' ∨ ∀ j ∈ l', s.inv r ≤ j)
  rw [hiff]
  constructor
  · rintro ⟨hflag, _⟩
    by_cases hmem : s.inv r ∈ l'
    · exact .inl hmem
    · refine .inr fun j hj => ?_
      by_contra hle
      exact hmem (hflag.mp ⟨j, hj, Nat.le_of_not_le hle⟩)
  · intro hcond
    refine ⟨⟨fun ⟨j, hj, hle⟩ => ?_, fun hmem => ⟨_, hmem, Nat.le_refl _⟩⟩, fun hmem => ?_⟩
    · rcases hcond with hmem | hall
      · exact hmem
      · exact Nat.le_antisymm hle (hall j hj) ▸ hj
    · refine hk.fulfilled hret (fun ⟨j, hj, hle⟩ => hmem ?_) hcons
      have hj' : j ∈ l' := log_mono_of_run hrun' j hj
      exact Nat.le_antisymm hle (hcond.resolve_left hmem j hj') ▸ hj'

/-- One rank with tree termination. -/
def treeSingle : Job :=
  .uniform 1 ⟨true, false, false, false, 64, treeWidth_init_pos⟩ Nat.one_pos

/-- The rest of an invocation on one rank that has its flag set: no item is processed. -/
def passAborted (request : Event Nat) : List (Event Nat) :=
  List.flatten
    [passMain 0, [request, .checkForTerm 0, .termRepliesDone 0, .termUp 0, .barrierStart 0,
      .barrierReply 0 none, .barrierUp 0, .worksendWait 0, .abortReduceUp 0]]

/-- The create callback calls `CIRCLE_abort`. -/
def abortOnce : List (Event Nat) := .begin 0 none [.abort] :: passAborted (.requestNone 0 true)

/-- The invocation after it enqueues one item, and nobody calls `CIRCLE_abort`. -/
def abortTwice : List (Event Nat) :=
  .finish 0 :: .begin 0 none [.enqueue 7] :: passAborted (.requestSkip 0)

/-- Both ranks have processed their items.  They leave the main loop and return, rank `1` without
the result of the abort reduction yet. -/
def lastReturn : List (Event Nat) :=
  List.flatten
    [[.termUp 0, .workreq 1 0, .workreqDone 1 0, .sendNoWork 1, .workreceiptDone 1, .worksend 1 0,
        .worksend 1 0, .worksendDone 1],
      passAbort 1 none false, .requestNone 1 true :: passTerm 1 true,
      [.barrierStart 0, .workreq 0 1, .workreqDone 0 0, .sendNoWork 0, .worksend 0 0,
        .worksend 0 0, .worksend 0 0, .worksendDone 0, .reduceSkip 0, .requestReply 0 true,
        .abortStart 0, .abortRequest 0 none, .abortReplies 0 false, .barrierStart 0,
        .barrierReply 0 none, .barrierUp 0, .barrierDown 0 false],
      [.barrierStart 1, .workreqDone 1 0, .worksendDone 1, .reduceSkip 1, .requestReply 1 true,
        .abortStart 1, .abortRequest 1 none, .abortReplies 1 false, .barrierStart 1,
        .barrierReply 1 none, .barrierUp 1],
      passSettle 0,
      [.barrierReply 0 (some 1), .barrierUp 0, .worksendWait 0, .barrierDown 1 true,
        .worksendWait 1, .abortReduceUp 1, .abortReduceReply 0, .abortReduceUp 0]]

/-- Two invocations.  Rank `0` begins the second one while rank `1` is on its way out of the first,
and hands an item over in both. -/
def secondReturn : List (Event Nat) :=
  List.flatten
    [lastRound, lastReturn, .finish 0 :: lastRound.take 1, [.abortReduceDown 1, .finish 1],
      lastRound.drop 1, lastReturn]

/-- The third invocation is aborted, which changes nothing for the second one. -/
theorem aborted_iff_called_secondReturn :
    let y := treePair.logged.follow (.fresh, []) secondReturn
    let z := treePair.logged.follow y [.finish 0, .begin 0 (some 1) [.abort]]
    y.1.inv 0 = 2 ∧ z.2 = [3] ∧ y.1.abortFlag 0 = false ∧ y.1.Fulfilled treePair 0 := by
  intro y z
  have hrun : treePair.logged.Run (.fresh, []) secondReturn y := .of_admits (by decide +kernel)
  have hrun' : treePair.logged.Run y [.finish 0, .begin 0 (some 1) [.abort]] z :=
    .of_admits (by decide +kernel)
  have hret : y.1.Enabled treePair (.finish 0) := by decide +kernel
  have hinv : y.1.inv 0 = 2 := by decide +kernel
  have hlog : z.2 = [3] := by decide +kernel
  have hends := (aborted_iff_called (fun _ => rfl) rfl hrun hret hrun').mpr
    (by rw [hinv, hlog]; decide)
  rw [hinv, hlog] at hends
  exact ⟨hinv, hlog, by simpa using hends.1, hends.2 (by decide)⟩

/-- The second invocation ends aborted with its item in the checkpoint's queue, and only the
first one is in the log. -/
theorem aborted_iff_called_fails :
    let y := treeSingle.logged.follow (Sys.fresh, []) (abortOnce ++ abortTwice)
    treeSingle.logged.Run (Sys.fresh, []) (abortOnce ++ abortTwice) y ∧
      y.1.Enabled treeSingle (.finish 0) ∧ y.1.inv 0 = 2 ∧ y.2 = [1] ∧
      y.1.work.queue 0 = [7] ∧ ¬(y.1.abortFlag 0 = true ↔ y.1.inv 0 ∈ y.2) :=
  ⟨.of_admits (by decide +kernel), by decide +kernel, by decide +kernel, by decide +kernel,
    by decide +kernel, by decide +kernel⟩

end Libcircle
